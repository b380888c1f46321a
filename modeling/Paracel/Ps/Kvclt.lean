import Paracel.Server.NoLostUpdate

/-!
# The client of one server

The methods of `kvclt` (`include/client.hpp`) that the parameter server layer
uses. A method packs a request, sends it to the thread of its port and unpacks
the reply; `none` means that no such reply comes. Messages arrive as they were
sent. `update` and `register_update` go over a PUSH socket and are not
answered; they are taken as handled when the method returns.
-/

namespace Paracel

variable {V : Type}

/-- Unpacking a reply that carries a `bool`. -/
def Reply.toBool : Reply V → Option Bool
  | .bool b => some b
  | _ => none

/-- Unpacking a reply that carries a value; `nokey` is tested for first. -/
def Reply.toVal : Reply V → Option (Option V)
  | .val v => some (some v)
  | .nokey => some none
  | _ => none

/-- Unpacking a reply that carries a list. -/
def Reply.toVals : Reply V → Option (List V)
  | .vals vs => some vs
  | _ => none

/-- Unpacking a reply that carries a dictionary. -/
def Reply.toDct : Reply V → Option (Dict Str V)
  | .dct d => some d
  | _ => none

namespace Kvclt

section Methods

variable [Inhabited V] (lib : Libs V) (s : Server V)

/-- `req_send_recv` and its variants for lists and dictionaries. -/
def reqSendRecv {β : Type} (req : Request V) (unpack : Reply V → Option β) :
    Option (β × Server V) :=
  let t := serve lib s req
  (t.sent.head?.bind unpack).map fun b => (b, t.mem)

/-- `push_send`. -/
def pushSend (req : Request V) : Server V :=
  (serve lib s req).mem

/-- `kvclt::contains`. -/
def contains (key : Str) : Option (Bool × Server V) :=
  reqSendRecv lib s (.contains key) Reply.toBool

/-- `kvclt::pull`, the overload with a reference; `some none` is its `false`. -/
def pull (key : Str) : Option (Option V × Server V) :=
  reqSendRecv lib s (.pull key) Reply.toVal

/-- `kvclt::pull_multi`. -/
def pullMulti (keyLst : List Str) : Option (List V × Server V) :=
  reqSendRecv lib s (.pullMulti keyLst) Reply.toVals

/-- `kvclt::pullall`. -/
def pullall : Option (Dict Str V × Server V) :=
  reqSendRecv lib s .pullall Reply.toDct

/-- `kvclt::push`. -/
def push (key : Str) (val : V) : Option (Bool × Server V) :=
  reqSendRecv lib s (.push key val) Reply.toBool

/-- `kvclt::push_multi` on two lists. -/
def pushMulti (keyLst : List Str) (valLst : List V) : Option (Bool × Server V) :=
  reqSendRecv lib s (.pushMulti keyLst valLst) Reply.toBool

/-- `kvclt::push_multi` on a dictionary. -/
def pushMultiDct (dct : Dict Str V) : Option (Bool × Server V) :=
  pushMulti lib s ((Dict.pairs dct).map Prod.fst) ((Dict.pairs dct).map Prod.snd)

/-- `kvclt::register_update`. -/
def registerUpdate (func : Symbol) : Server V :=
  pushSend lib s (.registerUpdate func)

/-- `kvclt::update`, with and without a function name. -/
def update (key : Str) (delta : V) (func : Option Symbol) : Server V :=
  pushSend lib s (.update key delta func)

/-- `kvclt::bupdate`, with and without a function name; the result is `val` and `r`. -/
def bupdate (key : Str) (delta : V) (func : Option Symbol) : Option (Option V × Server V) :=
  reqSendRecv lib s (.bupdate key delta func) Reply.toVal

/-- `kvclt::bupdate_multi` on two lists. -/
def bupdateMulti (keyLst : List Str) (valLst : List V) (func : Option Symbol) :
    Option (List V × Server V) :=
  reqSendRecv lib s (.bupdateMulti keyLst valLst func) Reply.toVals

/-- `kvclt::bupdate_multi` on a dictionary. -/
def bupdateMultiDct (dct : Dict Str V) (func : Option Symbol) : Option (List V × Server V) :=
  bupdateMulti lib s ((Dict.pairs dct).map Prod.fst) ((Dict.pairs dct).map Prod.snd) func

/-- `kvclt::remove`. -/
def remove (key : Str) : Option (Bool × Server V) :=
  reqSendRecv lib s (.remove key) Reply.toBool

end Methods

/-! ### What the methods return, and what they leave on the server -/

section Specs

variable [Inhabited V] (lib : Libs V) (s : Server V)

theorem contains_eq (key : Str) : contains lib s key =
    some (s.tblStore.contains key, (serve lib s (.contains key)).mem) := rfl

theorem pull_eq (key : Str) : pull lib s key =
    some (s.tblStore.get key, (serve lib s (.pull key)).mem) := by
  simp only [pull, reqSendRecv, serve_sent, thrdExec, Server.mem]
  cases s.tblStore.get key <;> rfl

/-- A server that is asked for an absent key does not answer. -/
theorem pullMulti_eq (keyLst : List Str) : pullMulti lib s keyLst =
    (s.tblStore.getMulti keyLst).map fun vals => (vals, s) := by
  have hmem : (serve lib s (.pullMulti keyLst)).mem = s := by
    apply serve_mem_eq_self
    simp only [thrdExec]
    cases (s.mem _).tblStore.getMulti keyLst <;> rfl
  rw [pullMulti, reqSendRecv, hmem]
  simp only [serve_sent, thrdExec, Server.mem]
  cases s.tblStore.getMulti keyLst <;> rfl

theorem pullall_eq : pullall lib s = some (s.tblStore.getall, (serve lib s .pullall).mem) := rfl

theorem mem_pullall : (serve lib s .pullall).mem = s :=
  serve_mem_eq_self lib s .pullall rfl

theorem push_eq (key : Str) (val : V) :
    push lib s key val = some (true, (serve lib s (.push key val)).mem) := rfl

theorem pushMulti_eq {keyLst : List Str} {valLst : List V}
    (hlen : keyLst.length = valLst.length) : pushMulti lib s keyLst valLst =
    some (true, (serve lib s (.pushMulti keyLst valLst)).mem) := by
  simp [pushMulti, reqSendRecv, thrdExec, hlen, Reply.toBool]

/-- The value that `bupdate` brings back is the one it leaves on the server. -/
theorem bupdate_eq (key : Str) (delta : V) (func : Option Symbol) :
    bupdate lib s key delta func =
      some ((serve lib s (.bupdate key delta func)).mem.tblStore.get key,
        (serve lib s (.bupdate key delta func)).mem) := by
  simp [bupdate, reqSendRecv, thrdExec, Reply.toVal]

theorem bupdateMulti_eq {keyLst : List Str} {valLst : List V} (func : Option Symbol)
    (hlen : keyLst.length = valLst.length) : bupdateMulti lib s keyLst valLst func =
    some ((kvsUpdate (chosen lib (s.envs 3) func) keyLst valLst s.tblStore).1,
      (serve lib s (.bupdateMulti keyLst valLst func)).mem) := by
  simp only [bupdateMulti, reqSendRecv, serve_sent, thrdExec, hlen, if_true, Turn.send_fresh,
    loadUpdate_fst]
  rfl

theorem remove_eq (key : Str) : remove lib s key =
    some (s.tblStore.contains key, (serve lib s (.remove key)).mem) := by
  simp [remove, reqSendRecv, thrdExec, Server.mem, Kvs.del_fst, Reply.toBool]

theorem tblStore_contains (key : Str) :
    (serve lib s (.contains key)).mem.tblStore = s.tblStore := rfl

theorem tblStore_pull (key : Str) : (serve lib s (.pull key)).mem.tblStore = s.tblStore := by
  simp only [serve_tblStore, thrdExec, Server.mem]
  cases s.tblStore.get key <;> rfl

theorem tblStore_pullall : (serve lib s .pullall).mem.tblStore = s.tblStore := rfl

theorem tblStore_push (key : Str) (val : V) :
    (serve lib s (.push key val)).mem.tblStore = s.tblStore.set key val := rfl

theorem tblStore_remove (key : Str) :
    (serve lib s (.remove key)).mem.tblStore = (s.tblStore.del key).2 := rfl

/-- An update request leaves its pairs applied with the function it chose. -/
theorem tblStore_update {req : Request V} (hupd : req.isUpdate) :
    (serve lib s req).mem.tblStore =
      applyPairs (appliedWith lib (s.envs req.port) req) s.tblStore req.pairs :=
  (thrdExec_update hupd).2

/-- A request with one pair merges its delta into its key and touches no other. -/
theorem get_update_single {req : Request V} (hupd : req.isUpdate) {key : Str} {delta : V}
    (hpairs : req.pairs = [(key, delta)]) (k : Str) :
    (serve lib s req).mem.tblStore.get k =
      if k = key then
        Option.merge (appliedWith lib (s.envs req.port) req) (s.tblStore.get key) (some delta)
      else s.tblStore.get k := by
  rw [tblStore_update lib s hupd, get_applyPairs, hpairs, MergeFold.deltasOf_cons]
  by_cases hk : k = key
  · subst hk
    rw [if_pos rfl, if_pos rfl]
    rfl
  · rw [if_neg hk, if_neg (Ne.symm hk)]
    rfl

/-- Pushing a dictionary overwrites the keys it has and no others. -/
theorem get_pushMultiDct (dct : Dict Str V) (key : Str) :
    (serve lib s (.pushMulti ((Dict.pairs dct).map Prod.fst)
      ((Dict.pairs dct).map Prod.snd))).mem.tblStore.get key =
    (dct.lookup key).or (s.tblStore.get key) := by
  have hzip : ((Dict.pairs dct).map Prod.fst).zip ((Dict.pairs dct).map Prod.snd) =
      Dict.pairs dct := by
    rw [List.zip_map', List.map_id']
  have hdct : ((Dict.pairs dct).foldl (fun d kv => d.insert kv.1 kv.2) (∅ : Dict Str V)).lookup
      key = dct.lookup key := by
    rw [Kvs.lookup_foldl_insert, AList.lookup_empty, Option.or_none]
  simp only [serve_tblStore, thrdExec, List.length_map, if_true, Turn.send_fresh,
    Kvs.get_setMulti, hzip, hdct]
  rfl

end Specs

end Kvclt

end Paracel
