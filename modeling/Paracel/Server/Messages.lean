import Paracel.Server.Packed
import Paracel.Wire

/-!
# Requests and replies as messages

What the methods of `kvclt` paste into a message, what `thrd_exec` reads out of
it, and the way back of a reply. The store holds the packed values, which the
server sends back as they are; an updater or a filter opens them through
`update_proxy` and `filter_proxy`.
-/

namespace Paracel

open SplitWord

/-- The operation at the head of a message. -/
inductive Indicator where
  | contains | pull | pullMulti | pullall | pullallSpecial | registerPullallSpecial
  | registerRemoveSpecial | registerUpdate | registerBupdate | push | pushMulti | update
  | bupdate | bupdateMulti | remove | removeSpecial | clear
deriving DecidableEq

/-- Its text. -/
def Indicator.str : Indicator → Str
  | .contains => lit "contains"
  | .pull => lit "pull"
  | .pullMulti => lit "pull_multi"
  | .pullall => lit "pullall"
  | .pullallSpecial => lit "pullall_special"
  | .registerPullallSpecial => lit "register_pullall_special"
  | .registerRemoveSpecial => lit "register_remove_special"
  | .registerUpdate => lit "register_update"
  | .registerBupdate => lit "register_bupdate"
  | .push => lit "push"
  | .pushMulti => lit "push_multi"
  | .update => lit "update"
  | .bupdate => lit "bupdate"
  | .bupdateMulti => lit "bupdate_multi"
  | .remove => lit "remove"
  | .removeSpecial => lit "remove_special"
  | .clear => lit "clear"

/-- The operations that `thrd_exec` tests for. -/
def indicators : List Indicator :=
  [.contains, .pull, .pullMulti, .pullall, .pullallSpecial, .registerPullallSpecial,
    .registerRemoveSpecial, .registerUpdate, .registerBupdate, .push, .pushMulti, .update,
    .bupdate, .bupdateMulti, .remove, .removeSpecial, .clear]

/-- The operation with a text. -/
def readIndicator (indicator : Str) : Option Indicator :=
  indicators.find? fun i => i.str = indicator

/-- The msgpack library on the types that the servers pack. -/
structure Packers where
  str : Msgpack Str
  strs : Msgpack (List Str)
  dct : Msgpack (Dict Str Str)
  bool : Msgpack Bool

/-- `paste` on packed arguments. -/
def pasteFields : Str → List Str → Str
  | field, [] => field
  | field, next :: fields => field ++ seperator ++ pasteFields next fields

variable {V : Type}

section Client

variable (pk : Packers) (mp : Msgpack V)

/-- The operation of a request. -/
def Request.indicator : Request V → Indicator
  | .contains _ => .contains
  | .pull _ => .pull
  | .pullMulti _ => .pullMulti
  | .pullall => .pullall
  | .pullallSpecial _ => .pullallSpecial
  | .registerPullallSpecial _ => .registerPullallSpecial
  | .registerRemoveSpecial _ => .registerRemoveSpecial
  | .registerUpdate _ => .registerUpdate
  | .registerBupdate _ => .registerBupdate
  | .push _ _ => .push
  | .pushMulti _ _ => .pushMulti
  | .update _ _ _ => .update
  | .bupdate _ _ _ => .bupdate
  | .bupdateMulti _ _ _ => .bupdateMulti
  | .remove _ => .remove
  | .removeSpecial _ => .removeSpecial
  | .clear => .clear

/-- The two arguments that name a function. -/
def symbolArgs (func : Symbol) : List Str :=
  [pack pk.str func.fn, pack pk.str func.fcn]

/-- The same where they can be left out. -/
def optionArgs : Option Symbol → List Str
  | none => []
  | some func => symbolArgs pk func

/-- The packed arguments behind the operation. -/
def Request.args : Request V → List Str
  | .contains key | .pull key | .remove key => [pack pk.str key]
  | .pullMulti keyLst => [pack pk.strs keyLst]
  | .pullall | .clear => []
  | .pullallSpecial func | .removeSpecial func => optionArgs pk func
  | .registerPullallSpecial func | .registerRemoveSpecial func | .registerUpdate func
  | .registerBupdate func => symbolArgs pk func
  | .push key val => [pack pk.str key, pack mp val]
  | .pushMulti keyLst valLst => [pack pk.strs keyLst, pack pk.strs (valLst.map (pack mp))]
  | .update key delta func | .bupdate key delta func =>
      [pack pk.str key, pack mp delta] ++ optionArgs pk func
  | .bupdateMulti keyLst valLst func =>
      [pack pk.strs keyLst, pack pk.strs (valLst.map (pack mp))] ++ optionArgs pk func

/-- The fields of the message of a request. -/
def Request.fields (req : Request V) : List Str :=
  pack pk.str req.indicator.str :: req.args pk mp

/-- The message that the method of a request sends. -/
def Request.message (req : Request V) : Str :=
  pasteFields (pack pk.str req.indicator.str) (req.args pk mp)

/-- What `req_send_recv` and its variants for lists and dictionaries make of the reply to an
    operation. -/
def unpackReply (i : Indicator) (data : Str) : Option (Reply V) :=
  match i with
  | .contains | .push | .pushMulti | .registerPullallSpecial | .registerRemoveSpecial
  | .registerBupdate | .remove | .removeSpecial | .clear =>
      if data = lit "nokey" then some .nokey else (unpack pk.bool data).map .bool
  | .pull | .bupdate =>
      if data = lit "nokey" then some .nokey else (unpack mp data).map .val
  | .pullMulti | .bupdateMulti =>
      ((unpack pk.strs data).bind fun tmp => tmp.mapM (unpack mp)).map .vals
  | .pullall | .pullallSpecial =>
      ((unpack pk.dct data).bind fun tmp =>
        (Dict.pairs tmp).mapM fun kv => (unpack mp kv.2).map fun v => (kv.1, v)).map fun kvs =>
          .dct (kvs.foldl (fun d kv => d.insert kv.1 kv.2) ∅)
  | .update | .registerUpdate => none

end Client

section Server

variable (pk : Packers)

/-- `unpack(msg[i])`. -/
def unpackAt {α : Type} (mp : Msgpack α) (msg : List Str) (i : Nat) : Option α :=
  msg[i]?.bind (unpack mp)

/-- The function that two fields name. -/
def symbolAt (msg : List Str) (i : Nat) : Option Symbol := do
  let fn ← unpackAt pk.str msg i
  let fcn ← unpackAt pk.str msg (i + 1)
  some ⟨fn, fcn⟩

/-- The filter that a message names, if it has three fields. -/
def filterAt (msg : List Str) : Option (Option Symbol) :=
  if msg.length = 3 then (symbolAt pk msg 1).map some else some none

/-- The updater that a message names, if it has more than three fields. -/
def updaterAt (msg : List Str) : Option (Option Symbol) :=
  if 3 < msg.length then (symbolAt pk msg 3).map some else some none

/-- What `thrd_exec` reads out of a message; `none` if no handler is for it, or a field that the
    handler reads is missing or cannot be unpacked. -/
def readMessage (msg : List Str) : Option (Request Str) := do
  let indicator ← unpackAt pk.str msg 0
  let i ← readIndicator indicator
  match i with
  | .contains => some (.contains (← unpackAt pk.str msg 1))
  | .pull => some (.pull (← unpackAt pk.str msg 1))
  | .pullMulti => some (.pullMulti (← unpackAt pk.strs msg 1))
  | .pullall => some .pullall
  | .pullallSpecial => some (.pullallSpecial (← filterAt pk msg))
  | .registerPullallSpecial => some (.registerPullallSpecial (← symbolAt pk msg 1))
  | .registerRemoveSpecial => some (.registerRemoveSpecial (← symbolAt pk msg 1))
  | .registerUpdate => some (.registerUpdate (← symbolAt pk msg 1))
  | .registerBupdate => some (.registerBupdate (← symbolAt pk msg 1))
  | .push => some (.push (← unpackAt pk.str msg 1) (← msg[2]?))
  | .pushMulti => some (.pushMulti (← unpackAt pk.strs msg 1) (← unpackAt pk.strs msg 2))
  | .update => do
      let func ← updaterAt pk msg
      some (.update (← unpackAt pk.str msg 1) (← msg[2]?) func)
  | .bupdate => do
      let func ← updaterAt pk msg
      some (.bupdate (← unpackAt pk.str msg 1) (← msg[2]?) func)
  | .bupdateMulti => do
      let func ← updaterAt pk msg
      some (.bupdateMulti (← unpackAt pk.strs msg 1) (← unpackAt pk.strs msg 2) func)
  | .remove => some (.remove (← unpackAt pk.str msg 1))
  | .removeSpecial => some (.removeSpecial (← filterAt pk msg))
  | .clear => some .clear

/-- What goes over the socket for a reply: `rep_send` for a value or `nokey`, `rep_pack_send`
    for all else. -/
def Reply.send : Reply Str → Str
  | .bool b => pack pk.bool b
  | .nokey => lit "nokey"
  | .val v => v
  | .vals vs => pack pk.strs vs
  | .dct d => pack pk.dct d

/-- One turn of `thrd_exec` on a message, on the thread that the request is for. -/
def recvExec (lib : Libs Str) (s : Server Str) (scrip : Str) :
    Option (Turn Str (Server Str)) :=
  (readMessage pk (strSplitByWord scrip seperator)).map fun req =>
    let t := serve lib s req
    { sent := t.sent.map (Reply.send pk), thrown := t.thrown, mem := t.mem }

/-- `update_proxy`. Unpacking throws where it fails; the empty text that stands for this is never
    the result on values that clients have packed. -/
def updateProxy (mp : Msgpack V) (func : V → V → V) (sVal sDelta : Str) : Str :=
  match unpack mp sVal, unpack mp sDelta with
  | some p1, some p2 => pack mp (func p1 p2)
  | _, _ => []

/-- `filter_proxy`, where `false` stands for the exception of a failed unpacking. -/
def filterProxy (mp : Msgpack V) (func : Str → V → Bool) (sKey sVal : Str) : Bool :=
  match unpack mp sVal with
  | some p2 => func sKey p2
  | none => false

/-- The shared libraries as the servers load them. -/
def Libs.proxy (mp : Msgpack V) (lib : Libs V) : Libs Str where
  update func := updateProxy mp (lib.update func)
  filter func := filterProxy mp (lib.filter func)

end Server

/-! ### The operation -/

theorem readIndicator_str (i : Indicator) : readIndicator i.str = some i := by
  cases i <;> decide +kernel

/-! ### Framing -/

/-- msgpack gives the object back, and its size fits into eight bytes. -/
structure Msgpack.Fits {α : Type} (mp : Msgpack α) (val : α) : Prop where
  round : mp.unpack (mp.pack val) = some val
  size : (mp.pack val).length < 2 ^ 64

theorem unpack_of_fits {α : Type} {mp : Msgpack α} {val : α} (h : mp.Fits val) :
    unpack mp (pack mp val) = some val :=
  unpack_pack h.round h.size

/-- The fields of a message can be told apart: none contains the separator, and none but the
    last ends with the separator less its last byte. -/
structure Framed (fields : List Str) : Prop where
  clean : ∀ field ∈ fields, ¬seperator <:+: field
  ends : ∀ field ∈ fields.dropLast, ¬lit "_PARACEL" <:+ field

theorem pasteFields_eq_intercalate (field : Str) (fields : List Str) :
    pasteFields field fields = List.intercalate seperator (field :: fields) := by
  induction fields generalizing field with
  | nil => rw [pasteFields, List.intercalate_singleton]
  | cons next fields ih => rw [pasteFields, ih, List.intercalate_cons_cons]

/-- `paste` on arguments of one type. -/
theorem paste_eq_pasteFields {α : Type} (mp : Msgpack α) (opStr : α) (args : List α) :
    paste mp opStr args = pasteFields (pack mp opStr) (args.map (pack mp)) := by
  rw [paste_eq_intercalate, pasteFields_eq_intercalate, List.map_cons]

theorem split_pasteFields {field : Str} {fields : List Str} (hframed : Framed (field :: fields))
    (hne : ∀ f ∈ field :: fields, f ≠ []) :
    strSplitByWord (pasteFields field fields) seperator = field :: fields := by
  obtain ⟨init, last, hinit⟩ : ∃ init last, field :: fields = init ++ [last] :=
    ⟨_, _, (List.dropLast_append_getLast (List.cons_ne_nil field fields)).symm⟩
  have hlast : last ∈ field :: fields := by
    rw [hinit]
    exact List.mem_append_right init List.mem_cons_self
  rw [pasteFields_eq_intercalate, hinit,
    strSplitByWord_intercalate_iff seperator_ne_nil (hne last hlast),
    splitWord_intercalate_iff seperator_ne_nil]
  refine ⟨?_, hframed.clean last hlast⟩
  intro p hp
  rw [clean_seperator_iff]
  refine ⟨hframed.clean p ?_, hframed.ends p ?_⟩
  · rw [hinit]
    exact List.mem_append_left [last] hp
  · rwa [hinit, List.dropLast_concat]

/-! ### Requests -/

section Requests

variable {pk : Packers} {mp : Msgpack V}

/-- msgpack gives the name of a function back. -/
structure SymbolFits (pk : Packers) (func : Symbol) : Prop where
  fn : pk.str.Fits func.fn
  fcn : pk.str.Fits func.fcn

/-- msgpack gives the arguments of the request back. -/
def Request.ArgsFit (pk : Packers) (mp : Msgpack V) : Request V → Prop
  | .contains key | .pull key | .remove key => pk.str.Fits key
  | .pullMulti keyLst => pk.strs.Fits keyLst
  | .pullall | .clear => True
  | .pullallSpecial func | .removeSpecial func => ∀ sym ∈ func, SymbolFits pk sym
  | .registerPullallSpecial func | .registerRemoveSpecial func | .registerUpdate func
  | .registerBupdate func => SymbolFits pk func
  | .push key val => pk.str.Fits key ∧ mp.Fits val
  | .pushMulti keyLst valLst => pk.strs.Fits keyLst ∧ pk.strs.Fits (valLst.map (pack mp))
  | .update key delta func | .bupdate key delta func =>
      pk.str.Fits key ∧ mp.Fits delta ∧ ∀ sym ∈ func, SymbolFits pk sym
  | .bupdateMulti keyLst deltas func =>
      pk.strs.Fits keyLst ∧ pk.strs.Fits (deltas.map (pack mp)) ∧ ∀ sym ∈ func, SymbolFits pk sym

/-- A request that arrives: msgpack gives its parts back, and its fields can be told apart. -/
structure Request.Sendable (pk : Packers) (mp : Msgpack V) (req : Request V) : Prop where
  op : pk.str.Fits req.indicator.str
  args : req.ArgsFit pk mp
  framed : Framed (req.fields pk mp)

theorem unpackAt_of_getElem? {α : Type} {mp : Msgpack α} {msg : List Str} {i : Nat} {val : α}
    (hfit : mp.Fits val) (hi : msg[i]? = some (pack mp val)) : unpackAt mp msg i = some val := by
  rw [unpackAt, hi]
  exact unpack_of_fits hfit

theorem symbolAt_of_getElem? {msg : List Str} {i : Nat} {func : Symbol}
    (hfit : SymbolFits pk func) (hfn : msg[i]? = some (pack pk.str func.fn))
    (hfcn : msg[i + 1]? = some (pack pk.str func.fcn)) : symbolAt pk msg i = some func := by
  rw [symbolAt, unpackAt_of_getElem? hfit.fn hfn, unpackAt_of_getElem? hfit.fcn hfcn]
  rfl

/-- A filter is read back, named or not. -/
theorem filterAt_optionArgs {op : Str} {func : Option Symbol}
    (hfit : ∀ sym ∈ func, SymbolFits pk sym) :
    filterAt pk (op :: optionArgs pk func) = some func := by
  cases func with
  | none => rfl
  | some sym =>
      have hsym : symbolAt pk (op :: optionArgs pk (some sym)) 1 = some sym :=
        symbolAt_of_getElem? (hfit sym rfl) rfl rfl
      show (symbolAt pk (op :: optionArgs pk (some sym)) 1).map some = some (some sym)
      rw [hsym]
      rfl

/-- So is an updater, behind two arguments. -/
theorem updaterAt_optionArgs {op key delta : Str} {func : Option Symbol}
    (hfit : ∀ sym ∈ func, SymbolFits pk sym) :
    updaterAt pk (op :: key :: delta :: optionArgs pk func) = some func := by
  cases func with
  | none => rfl
  | some sym =>
      have hsym : symbolAt pk (op :: key :: delta :: optionArgs pk (some sym)) 3 = some sym :=
        symbolAt_of_getElem? (hfit sym rfl) rfl rfl
      show (symbolAt pk (op :: key :: delta :: optionArgs pk (some sym)) 3).map some =
        some (some sym)
      rw [hsym]
      rfl

/-- The server reads out of the fields the request with its values packed. -/
theorem readMessage_fields {req : Request V} (hop : pk.str.Fits req.indicator.str)
    (hargs : req.ArgsFit pk mp) :
    readMessage pk (req.fields pk mp) = some (req.map (pack mp)) := by
  have hhead : unpackAt pk.str (req.fields pk mp) 0 = some req.indicator.str :=
    unpackAt_of_getElem? hop rfl
  rw [readMessage, hhead]
  simp only [Option.bind_eq_bind, Option.bind_some, readIndicator_str]
  cases req with
  | contains key | pull key | remove key | pullMulti key =>
      simp only [Request.indicator]
      rw [unpackAt_of_getElem? hargs rfl]
      rfl
  | pullall | clear => rfl
  | pullallSpecial func | removeSpecial func =>
      simp only [Request.indicator, Request.fields, Request.args]
      rw [filterAt_optionArgs hargs]
      rfl
  | registerPullallSpecial func | registerRemoveSpecial func | registerUpdate func
  | registerBupdate func =>
      simp only [Request.indicator]
      rw [symbolAt_of_getElem? hargs rfl rfl]
      rfl
  | push key val =>
      simp only [Request.indicator]
      rw [unpackAt_of_getElem? hargs.1 rfl]
      rfl
  | pushMulti keyLst valLst =>
      simp only [Request.indicator]
      rw [unpackAt_of_getElem? hargs.1 rfl, unpackAt_of_getElem? hargs.2 rfl]
      rfl
  | update key delta func | bupdate key delta func =>
      simp only [Request.indicator, Request.fields, Request.args,
        List.cons_append, List.nil_append]
      rw [updaterAt_optionArgs hargs.2.2, unpackAt_of_getElem? hargs.1 rfl]
      rfl
  | bupdateMulti keyLst deltas func =>
      simp only [Request.indicator, Request.fields, Request.args,
        List.cons_append, List.nil_append]
      rw [updaterAt_optionArgs hargs.2.2, unpackAt_of_getElem? hargs.1 rfl,
        unpackAt_of_getElem? hargs.2.1 rfl]
      rfl

theorem ne_nil_of_mem_optionArgs {func : Option Symbol} {field : Str}
    (h : field ∈ optionArgs pk func) : field ≠ [] := by
  cases func with
  | none => cases h
  | some sym =>
      rcases List.mem_pair.mp h with rfl | rfl
      · exact pack_ne_nil pk.str sym.fn
      · exact pack_ne_nil pk.str sym.fcn

theorem Request.ne_nil_of_mem_fields {req : Request V} {field : Str}
    (h : field ∈ req.fields pk mp) : field ≠ [] := by
  rcases List.mem_cons.mp h with rfl | h
  · exact pack_ne_nil pk.str req.indicator.str
  · cases req with
    | pullall | clear => cases h
    | pullallSpecial func | removeSpecial func => exact ne_nil_of_mem_optionArgs h
    | registerPullallSpecial func | registerRemoveSpecial func | registerUpdate func
    | registerBupdate func =>
        exact ne_nil_of_mem_optionArgs (show field ∈ optionArgs pk (some func) from h)
    | contains key | pull key | remove key | pullMulti key =>
        rw [List.mem_singleton.mp h]
        exact pack_ne_nil _ key
    | push key val | pushMulti key val =>
        rcases List.mem_pair.mp h with rfl | rfl
        · exact pack_ne_nil _ key
        · exact pack_ne_nil _ _
    | update key delta func | bupdate key delta func | bupdateMulti key delta func =>
        rcases List.mem_append.mp h with h | h
        · rcases List.mem_pair.mp h with rfl | rfl
          · exact pack_ne_nil _ key
          · exact pack_ne_nil _ _
        · exact ne_nil_of_mem_optionArgs h

/-- What the server makes of the message of a request. -/
theorem readMessage_message {req : Request V} (h : req.Sendable pk mp) :
    readMessage pk (strSplitByWord (req.message pk mp) seperator) = some (req.map (pack mp)) := by
  have hsplit : strSplitByWord (req.message pk mp) seperator = req.fields pk mp :=
    split_pasteFields h.framed fun _ hmem => Request.ne_nil_of_mem_fields hmem
  rw [hsplit, readMessage_fields h.op h.args]

end Requests

/-! ### Replies -/

/-- The replies that an operation has. -/
def Reply.IsFor (i : Indicator) (r : Reply V) : Prop :=
  match i with
  | .update | .registerUpdate => False
  | .pull => r = .nokey ∨ ∃ v, r = .val v
  | .bupdate => ∃ v, r = .val v
  | .pullMulti | .bupdateMulti => ∃ vs, r = .vals vs
  | .pullall | .pullallSpecial => ∃ d, r = .dct d
  | _ => ∃ b, r = .bool b

/-- Two replies agree, where a dictionary may iterate in another order. -/
inductive Reply.Same : Reply V → Reply V → Prop where
  | refl (r : Reply V) : Reply.Same r r
  | dct {d d' : Dict Str V} (h : ∀ k, d.lookup k = d'.lookup k) : Reply.Same (.dct d) (.dct d')

/-- msgpack gives what is sent for the reply back; of a dictionary it keeps the entries, not
    their order. -/
def Reply.Fits (pk : Packers) (mp : Msgpack V) : Reply V → Prop
  | .bool b => pk.bool.Fits b
  | .nokey | .val _ => True
  | .vals vs => pk.strs.Fits (vs.map (pack mp))
  | .dct d =>
      (∃ tmp, unpack pk.dct (pack pk.dct (Dict.mapVal (pack mp) d)) = some tmp ∧
        ∀ k, tmp.lookup k = (Dict.mapVal (pack mp) d).lookup k)

section Replies

variable {pk : Packers} {mp : Msgpack V}

/-- What a thread sends is a reply to the operation. -/
theorem isFor_of_mem_sent [Inhabited V] {lib : Libs V} {m : Mem V} {req : Request V}
    {r : Reply V} (h : r ∈ (thrdExec lib m req).sent) : r.IsFor req.indicator := by
  have hsend : ∀ {t : Turn (Reply V) (Mem V)} {r' : Reply V}, t.sent = [] →
      r ∈ (t.send r').sent → r = r' := by
    intro t r' hnone hmem
    rw [Turn.send, hnone] at hmem
    split at hmem
    · rw [hnone] at hmem
      cases hmem
    · exact List.mem_singleton.mp hmem
  cases req with
  | contains key => exact ⟨_, hsend rfl h⟩
  | pull key =>
      simp only [thrdExec] at h
      split at h
      · exact .inl (hsend rfl h)
      · exact .inr ⟨_, hsend rfl h⟩
  | pullMulti keyLst =>
      simp only [thrdExec] at h
      split at h
      · cases h
      · exact ⟨_, hsend rfl h⟩
  | pullall => exact ⟨_, hsend rfl h⟩
  | pullallSpecial func => exact ⟨_, hsend rfl h⟩
  | registerPullallSpecial func => exact ⟨_, hsend rfl h⟩
  | registerRemoveSpecial func => exact ⟨_, hsend rfl h⟩
  | registerUpdate func => cases h
  | registerBupdate func => exact ⟨_, hsend rfl h⟩
  | push key val => exact ⟨_, hsend rfl h⟩
  | pushMulti keyLst valLst =>
      simp only [thrdExec] at h
      split at h
      · exact ⟨_, hsend rfl h⟩
      · cases h
  | update key delta func => cases h
  | bupdate key delta func => exact ⟨_, hsend rfl h⟩
  | bupdateMulti keyLst deltas func =>
      simp only [thrdExec] at h
      split at h
      · exact ⟨_, hsend rfl h⟩
      · cases h
  | remove key => exact ⟨_, hsend rfl h⟩
  | removeSpecial func => exact ⟨_, hsend rfl h⟩
  | clear => exact ⟨_, hsend rfl h⟩

/-- A packed object is longer than `nokey`. -/
theorem pack_ne_nokey {α : Type} (mp : Msgpack α) (val : α) : pack mp val ≠ lit "nokey" := by
  intro heq
  have hlen := congrArg List.length heq
  have hnokey : (lit "nokey").length = 5 := by decide
  rw [hnokey, pack, List.length_append, sizeBytes, List.length_map, List.length_range] at hlen
  omega

/-- The client gets the entries of a dictionary. -/
theorem exists_unpack_dct [Inhabited V] (hval : ∀ v, mp.Fits v) {d : Dict Str V}
    {tmp : Dict Str Str} (htmp : ∀ k, tmp.lookup k = (Dict.mapVal (pack mp) d).lookup k) :
    ∃ kvs : List (Str × V), ((Dict.pairs tmp).mapM fun kv =>
        (unpack mp kv.2).map fun v => (kv.1, v)) = some kvs ∧
      ∀ k, (kvs.foldl (fun d kv => d.insert kv.1 kv.2) (∅ : Dict Str V)).lookup k =
        d.lookup k := by
  -- every value of the packed dictionary can be opened
  have hopen : ∀ kv ∈ Dict.pairs tmp, unpack mp kv.2 = some ((unpack mp kv.2).getD default) := by
    intro kv hkv
    have hlookup := Dict.mem_pairs.mp hkv
    rw [htmp, Dict.lookup_mapVal, Option.map_eq_some_iff] at hlookup
    obtain ⟨v, -, hpack⟩ := hlookup
    rw [← hpack, unpack_of_fits (hval v)]
    rfl
  refine ⟨(Dict.pairs tmp).map fun kv => (kv.1, (unpack mp kv.2).getD default), ?_, ?_⟩
  · apply mapM_eq_some
    intro kv hkv
    rw [hopen kv hkv]
    rfl
  · intro k
    rw [← Dict.pairs_mapVal (fun s => (unpack mp s).getD default) tmp, Kvs.lookup_foldl_insert,
      AList.lookup_empty, Option.or_none, Dict.lookup_mapVal, htmp, Dict.lookup_mapVal,
      Option.map_map]
    have hback : ((fun s => (unpack mp s).getD default) ∘ pack mp) = id := by
      funext v
      rw [Function.comp_apply, unpack_of_fits (hval v)]
      rfl
    rw [hback, Option.map_id]
    rfl

/-- The client gets what the server means. -/
theorem exists_unpackReply [Inhabited V] (hval : ∀ v, mp.Fits v) {i : Indicator} {r : Reply V}
    (hfor : r.IsFor i) (hfit : r.Fits pk mp) :
    ∃ r', unpackReply pk mp i (Reply.send pk (r.map (pack mp))) = some r' ∧ r'.Same r := by
  have hbool : ∀ b : Bool, pk.bool.Fits b →
      (if pack pk.bool b = lit "nokey" then some (Reply.nokey : Reply V)
        else (unpack pk.bool (pack pk.bool b)).map .bool) = some (.bool b) := by
    intro b hb
    rw [if_neg (pack_ne_nokey _ _), unpack_of_fits hb]
    rfl
  have hone : ∀ v : V, (if pack mp v = lit "nokey" then some Reply.nokey
      else (unpack mp (pack mp v)).map .val) = some (Reply.val v) := by
    intro v
    rw [if_neg (pack_ne_nokey _ _), unpack_of_fits (hval v)]
    rfl
  have hlst : ∀ vs : List V, pk.strs.Fits (vs.map (pack mp)) →
      ((unpack pk.strs (pack pk.strs (vs.map (pack mp)))).bind fun tmp =>
        tmp.mapM (unpack mp)).map Reply.vals = some (.vals vs) := by
    intro vs hvs
    have hopen : (vs.map (pack mp)).mapM (unpack mp) = some vs := by
      have hback : ∀ v ∈ vs, (unpack mp ∘ pack mp) v = some v := fun v _ => unpack_of_fits (hval v)
      rw [List.mapM_map, mapM_eq_some hback, List.map_id']
    rw [unpack_of_fits hvs, Option.bind_some, hopen]
    rfl
  cases i with
  | update | registerUpdate => cases hfor
  | contains | push | pushMulti | registerPullallSpecial | registerRemoveSpecial
  | registerBupdate | remove | removeSpecial | clear =>
      obtain ⟨b, rfl⟩ := hfor
      exact ⟨.bool b, hbool b hfit, .refl _⟩
  | pull =>
      rcases hfor with rfl | ⟨v, rfl⟩
      · refine ⟨.nokey, ?_, .refl _⟩
        rw [unpackReply]
        exact if_pos rfl
      · exact ⟨.val v, hone v, .refl _⟩
  | bupdate =>
      obtain ⟨v, rfl⟩ := hfor
      exact ⟨.val v, hone v, .refl _⟩
  | pullMulti | bupdateMulti =>
      obtain ⟨vs, rfl⟩ := hfor
      exact ⟨.vals vs, hlst vs hfit, .refl _⟩
  | pullall | pullallSpecial =>
      obtain ⟨d, rfl⟩ := hfor
      obtain ⟨tmp, hunpack, htmp⟩ := hfit
      obtain ⟨kvs, hkvs, hlookup⟩ := exists_unpack_dct hval htmp
      refine ⟨.dct (kvs.foldl (fun d kv => d.insert kv.1 kv.2) ∅), ?_, .dct hlookup⟩
      show ((unpack pk.dct (pack pk.dct (Dict.mapVal (pack mp) d))).bind _).map _ = _
      rw [hunpack, Option.bind_some, hkvs]
      rfl

end Replies

/-! ### The libraries -/

/-- The proxies do on packed values what the functions do on the values. -/
theorem Libs.rep_proxy {mp : Msgpack V} (hval : ∀ v, mp.Fits v) (lib : Libs V) :
    lib.Rep (pack mp) (lib.proxy mp) where
  update func a b := by
    simp only [Libs.proxy, updateProxy, unpack_of_fits (hval _)]
  filter func key v := by
    simp only [Libs.proxy, filterProxy, unpack_of_fits (hval _)]

/-! ### Runs -/

/-- What a server has done: the replies to the requests that it handled, how a thread left its
    loop, if one did, and the memory left. -/
structure Served (ρ σ : Type) where
  replies : List (List ρ) := []
  thrown : Option Exn := none
  left : σ

/-- A turn in front of what comes after it. -/
def Served.cons {ρ σ : Type} (sent : List ρ) (rest : Served ρ σ) : Served ρ σ :=
  { rest with replies := sent :: rest.replies }

/-- Handles the requests of all clients in the order in which they arrive. -/
def serveRequests [Inhabited V] (lib : Libs V) : Server V → List (Request V) →
    Served (Reply V) (Server V)
  | s, [] => { left := s }
  | s, req :: reqs =>
      let t := serve lib s req
      match t.thrown with
      | some e => { replies := [t.sent], thrown := some e, left := t.mem }
      | none => (serveRequests lib t.mem reqs).cons t.sent

/-- The same on messages; `none` if one cannot be read. -/
def serveMessages (pk : Packers) (lib : Libs Str) : Server Str → List Str →
    Option (Served Str (Server Str))
  | s, [] => some { left := s }
  | s, scrip :: scrips =>
      (recvExec pk lib s scrip).bind fun t =>
        match t.thrown with
        | some e => some { replies := [t.sent], thrown := some e, left := t.mem }
        | none => (serveMessages pk lib t.mem scrips).map (Served.cons t.sent)

/-- What the clients make of the replies. -/
def unpackReplies (pk : Packers) (mp : Msgpack V) (reqs : List (Request V))
    (replies : List (List Str)) : List (List (Option (Reply V))) :=
  List.zipWith (fun req sent => sent.map (unpackReply pk mp req.indicator)) reqs replies

/-- The client gets this reply, up to the order of a dictionary. -/
def Reply.Got (got : Option (Reply V)) (r : Reply V) : Prop :=
  ∃ r', got = some r' ∧ r'.Same r

section Runs

variable [Inhabited V] {pk : Packers} {mp : Msgpack V} {lib : Libs V}

/-- One message: the server sends the packed replies to the request. -/
theorem recvExec_message (lib : Libs V) (hval : ∀ v, mp.Fits v) {s : Server V} {s' : Server Str}
    (h : s.Rep (pack mp) s') {req : Request V} (hreq : req.Sendable pk mp) :
    ∃ t, recvExec pk (lib.proxy mp) s' (req.message pk mp) = some t ∧
      t.sent = (serve lib s req).sent.map (fun r => Reply.send pk (r.map (pack mp))) ∧
      t.thrown = (serve lib s req).thrown ∧ (serve lib s req).mem.Rep (pack mp) t.mem := by
  obtain ⟨hsent, hthrown, hmem⟩ := serve_rep (lib.rep_proxy hval) h req
  refine ⟨_, by rw [recvExec, readMessage_message hreq, Option.map_some], ?_, hthrown, hmem⟩
  show (serve (lib.proxy mp) s' (req.map (pack mp))).sent.map (Reply.send pk) = _
  rw [hsent, List.map_map]
  rfl

/-- What the clients get for one request. -/
theorem forall₂_got (hval : ∀ v, mp.Fits v) {s : Server V} {req : Request V}
    (hfits : ∀ r ∈ (serve lib s req).sent, r.Fits pk mp) :
    List.Forall₂ Reply.Got
      (((serve lib s req).sent.map fun r => Reply.send pk (r.map (pack mp))).map
        (unpackReply pk mp req.indicator)) (serve lib s req).sent := by
  rw [List.map_map, List.forall₂_map_left_iff, List.forall₂_same]
  intro r hr
  exact exists_unpackReply hval (isFor_of_mem_sent hr) (hfits r hr)

/-- A run on messages follows the run on the requests. -/
theorem serveMessages_of_rep (hval : ∀ v, mp.Fits v) {s : Server V} {s' : Server Str}
    (h : s.Rep (pack mp) s') {reqs : List (Request V)}
    (hreqs : ∀ req ∈ reqs, req.Sendable pk mp)
    (hfits : ∀ sent ∈ (serveRequests lib s reqs).replies, ∀ r ∈ sent, r.Fits pk mp) :
    ∃ out, serveMessages pk (lib.proxy mp) s' (reqs.map (Request.message pk mp)) = some out ∧
      List.Forall₂ (List.Forall₂ Reply.Got) (unpackReplies pk mp reqs out.replies)
        (serveRequests lib s reqs).replies ∧
      out.thrown = (serveRequests lib s reqs).thrown ∧
      (serveRequests lib s reqs).left.Rep (pack mp) out.left := by
  induction reqs generalizing s s' with
  | nil => exact ⟨_, rfl, .nil, rfl, h⟩
  | cons req reqs ih =>
      obtain ⟨t, hrecv, hsent, hthrown, hmem⟩ :=
        recvExec_message lib hval h (hreqs req List.mem_cons_self)
      rw [List.map_cons, serveMessages, hrecv, Option.bind_some]
      rw [serveRequests] at hfits ⊢
      cases hend : (serve lib s req).thrown with
      | some e =>
          rw [hend] at hthrown
          simp only [hend] at hfits ⊢
          rw [hthrown]
          refine ⟨_, rfl, ?_, rfl, hmem⟩
          rw [unpackReplies, List.zipWith_cons_cons, List.zipWith_nil_right, hsent]
          exact .cons (forall₂_got hval (hfits _ List.mem_cons_self)) .nil
      | none =>
          rw [hend] at hthrown
          simp only [hend] at hfits ⊢
          obtain ⟨out, hout, hgot, hthrown', hleft⟩ := ih hmem
            (fun req' hreq' => hreqs req' (List.mem_cons_of_mem req hreq'))
            (fun sent' hsent' => hfits sent' (List.mem_cons_of_mem _ hsent'))
          rw [hthrown, hout]
          refine ⟨_, rfl, ?_, hthrown', hleft⟩
          rw [unpackReplies, hsent]
          exact .cons (forall₂_got hval (hfits _ List.mem_cons_self)) hgot

end Runs

/-- msgpack on unsigned bytes. -/
def uint8 : Msgpack UInt8 where
  pack b := if b < 128 then [b] else [0xcc, b]
  unpack
    | [b] => if b < 128 then some b else none
    | [c, b] => if c = 0xcc then some b else none
    | _ => none

/-- msgpack on booleans. -/
def boolean : Msgpack Bool where
  pack b := [if b then 0xc3 else 0xc2]
  unpack
    | [c] => if c = 0xc3 then some true else if c = 0xc2 then some false else none
    | _ => none

/-- Reads a number of short strings. -/
def readRaws : Nat → Str → Option (List Str)
  | 0, s => if s = [] then some [] else none
  | _ + 1, [] => none
  | n + 1, c :: s =>
      if 0xa0 ≤ c ∧ c.toNat - 0xa0 ≤ s.length then
        (readRaws n (s.drop (c.toNat - 0xa0))).map (s.take (c.toNat - 0xa0) :: ·)
      else none

/-- msgpack on lists of less than 16 short strings. -/
def fixarray : Msgpack (List Str) where
  pack ss := UInt8.ofNat (0x90 + ss.length) :: ss.flatMap fixraw.pack
  unpack
    | [] => none
    | c :: s => readRaws (c.toNat - 0x90) s

/-- The entries of a list in which each key stands before its value. -/
def rawPairs : List Str → List (Str × Str)
  | key :: val :: ss => (key, val) :: rawPairs ss
  | _ => []

/-- msgpack on dictionaries of less than 16 short strings. -/
def fixmap : Msgpack (Dict Str Str) where
  pack d := UInt8.ofNat (0x80 + (Dict.pairs d).length) ::
    (Dict.pairs d).flatMap fun kv => fixraw.pack kv.1 ++ fixraw.pack kv.2
  unpack
    | [] => none
    | c :: s => (readRaws (2 * (c.toNat - 0x80)) s).map fun ss =>
        (rawPairs ss).foldl (fun d kv => d.insert kv.1 kv.2) ∅

private theorem fixmap_round :
    fixmap.unpack (fixmap.pack ((∅ : Dict Str Str).insert (lit "a") (pack uint8 3))) =
      some ((∅ : Dict Str Str).insert (lit "a") (pack uint8 3)) := by
  have hpack : fixmap.pack ((∅ : Dict Str Str).insert (lit "a") (pack uint8 3)) =
      [129, 161, 97, 169, 1, 0, 0, 0, 0, 0, 0, 0, 3] := by decide
  have hread : readRaws 2 [161, 97, 169, 1, 0, 0, 0, 0, 0, 0, 0, 3] =
      some [lit "a", pack uint8 3] := by decide
  have hcount : 2 * (UInt8.toNat 129 - 0x80) = 2 := by decide
  rw [hpack]
  simp only [fixmap, hcount, hread, Option.map_some]
  rfl

/-- The msgpack library on small objects. -/
def smallPackers : Packers := ⟨fixraw, fixarray, fixmap, boolean⟩

/-- A library whose updaters all add. -/
def addLib : Libs UInt8 := ⟨fun _ a b => a + b, fun _ _ _ => true⟩

/-- A key is pushed, updated, and read with one that is absent. -/
def pushUpdatePull : List (Request UInt8) :=
  [.push (lit "a") 1, .update (lit "a") 2 none, .pull (lit "a"), .pull (lit "b"), .pullall]

end Paracel
