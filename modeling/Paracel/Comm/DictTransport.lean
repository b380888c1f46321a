import Mathlib.Data.List.TakeDrop
import Mathlib.Data.Rat.Init
import Paracel.Kv

/-!
# Dictionaries on the wire

`Comm::isend` and `Comm::recv` on a dict from strings to lists of doubles
(`include/utils/comm.hpp`). The size goes first, then every key and every value,
each as a size and its elements. The receiver reads all keys into one string and
all values into one list, and does not resize them for a size of 0; so an empty key
or an empty list arrives as the one before it.
-/

namespace Paracel.DictTransport

/-- A message of one rank to another. -/
inductive Message where
  | size (sz : Nat)
  | chars (data : Str)
  | doubles (data : List ℚ)

/-- `isend` of a string. -/
def isendStr (data : Str) : List Message := [.size data.length, .chars data]

/-- `isend` of a list of doubles. -/
def isendList (data : List ℚ) : List Message := [.size data.length, .doubles data]

/-- The messages of the entries, in iteration order. -/
def isendEntries (kvs : List (Str × List ℚ)) : List Message :=
  kvs.flatMap fun kv => isendStr kv.1 ++ isendList kv.2

/-- `Comm::isend` of a dict. -/
def isend (dct : Dict Str (List ℚ)) : List Message :=
  .size (Dict.pairs dct).length :: isendEntries (Dict.pairs dct)

/-- `recv` of a container whose elements are written over the first ones of `data`. -/
def recvInto {α : Type} (zero : α) (data : List α) (sz : Nat) (msg : List α) : List α :=
  let data := if sz ≠ 0 then data.takeD sz zero else data
  msg ++ data.drop msg.length

/-- `recv(tmp_key, src, tag)`, with the messages behind it. -/
def recvStr (tmpKey : Str) : List Message → Option (Str × List Message)
  | .size sz :: .chars msg :: msgs => some (recvInto 0 tmpKey sz msg, msgs)
  | _ => none

/-- `recv(tmp_val, src, tag)`, with the messages behind it. -/
def recvList (tmpVal : List ℚ) : List Message → Option (List ℚ × List Message)
  | .size sz :: .doubles msg :: msgs => some (recvInto 0 tmpVal sz msg, msgs)
  | _ => none

/-- The loop of `recv`, with the number of entries that are left. -/
def recvEntries : Nat → Str → List ℚ → Dict Str (List ℚ) → List Message →
    Option (Dict Str (List ℚ))
  | 0, _, _, dct, _ => some dct
  | n + 1, tmpKey, tmpVal, dct, msgs => do
      let (tmpKey, msgs) ← recvStr tmpKey msgs
      let (tmpVal, msgs) ← recvList tmpVal msgs
      recvEntries n tmpKey tmpVal (dct.insert tmpKey tmpVal) msgs

/-- `Comm::recv` of a dict. -/
def recv (dct : Dict Str (List ℚ)) : List Message → Option (Dict Str (List ℚ))
  | .size sz :: msgs => recvEntries sz [] [] dct msgs
  | _ => none

/-! ### One buffer -/

section Buffer

variable {α : Type}

/-- What a buffer holds after each of the lists was received into it. -/
def carry (data : List α) : List (List α) → List (List α)
  | [] => []
  | msg :: msgs =>
      let data := if msg = [] then data else msg
      data :: carry data msgs

/-- Behind a list with elements comes none without. -/
def Filled (msgs : List (List α)) : Prop :=
  msgs.Pairwise fun msg msg' => msg ≠ [] → msg' ≠ []

theorem recvInto_length (zero : α) (data msg : List α) :
    recvInto zero data msg.length msg = if msg = [] then data else msg := by
  by_cases h : msg = []
  · subst h
    rfl
  · have hlength : msg.length ≠ 0 := mt List.length_eq_zero_iff.mp h
    rw [if_neg h, recvInto, if_pos hlength]
    have hdrop : (data.takeD msg.length zero).drop msg.length = [] :=
      List.drop_eq_nil_of_le (List.takeD_length _ _ _).le
    rw [hdrop, List.append_nil]

theorem length_carry (data : List α) (msgs : List (List α)) :
    (carry data msgs).length = msgs.length := by
  induction msgs generalizing data with
  | nil => rfl
  | cons msg msgs ih => rw [carry, List.length_cons, List.length_cons, ih]

/-- A buffer that is not empty does not become so. -/
theorem ne_nil_of_mem_carry {data : List α} (hdata : data ≠ []) {msgs : List (List α)}
    {msg : List α} (h : msg ∈ carry data msgs) : msg ≠ [] := by
  induction msgs generalizing data with
  | nil => cases h
  | cons first msgs ih =>
      have hfirst : (if first = [] then data else first) ≠ [] := by
        split
        · exact hdata
        · assumption
      rw [carry, List.mem_cons] at h
      rcases h with rfl | h
      · exact hfirst
      · exact ih hfirst h

theorem carry_eq_self_iff (data : List α) (msgs : List (List α)) :
    carry data msgs = msgs ↔ Filled (data :: msgs) := by
  induction msgs generalizing data with
  | nil => simp [carry, Filled]
  | cons msg msgs ih =>
      have hnow : (if msg = [] then data else msg) = msg ↔ (data ≠ [] → msg ≠ []) := by
        split <;> simp_all
      have hcons : carry data (msg :: msgs) = msg :: msgs ↔
          (data ≠ [] → msg ≠ []) ∧ Filled (msg :: msgs) := by
        rw [carry, List.cons.injEq, ← hnow, ← ih]
        apply and_congr_right
        intro heq
        rw [heq]
      have hfilled : Filled (data :: msg :: msgs) ↔
          (∀ msg' ∈ msg :: msgs, data ≠ [] → msg' ≠ []) ∧ Filled (msg :: msgs) :=
        List.pairwise_cons
      rw [hcons, hfilled]
      refine and_congr_left fun hrest => ?_
      rw [List.forall_mem_cons]
      refine (and_iff_left_of_imp ?_).symm
      intro hmsg msg' hmem hdata
      exact List.rel_of_pairwise_cons hrest hmem (hmsg hdata)

/-- All lists are received as they were sent if none without elements comes too late. -/
theorem carry_nil_eq_self_iff (msgs : List (List α)) : carry [] msgs = msgs ↔ Filled msgs := by
  rw [carry_eq_self_iff, Filled, List.pairwise_cons]
  exact and_iff_right fun _ _ h => absurd rfl h

end Buffer

/-! ### The entries -/

/-- The entries as they arrive. -/
def arrived (tmpKey : Str) (tmpVal : List ℚ) (kvs : List (Str × List ℚ)) :
    List (Str × List ℚ) :=
  (carry tmpKey (kvs.map Prod.fst)).zip (carry tmpVal (kvs.map Prod.snd))

theorem recvEntries_isendEntries (kvs : List (Str × List ℚ)) (tmpKey : Str) (tmpVal : List ℚ)
    (dct : Dict Str (List ℚ)) :
    recvEntries kvs.length tmpKey tmpVal dct (isendEntries kvs) =
      some ((arrived tmpKey tmpVal kvs).foldl (fun d kv => d.insert kv.1 kv.2) dct) := by
  induction kvs generalizing tmpKey tmpVal dct with
  | nil => rfl
  | cons kv kvs ih =>
      have hmsgs : isendEntries (kv :: kvs) =
          .size kv.1.length :: .chars kv.1 :: .size kv.2.length :: .doubles kv.2 ::
            isendEntries kvs := rfl
      have hturn : recvEntries (kvs.length + 1) tmpKey tmpVal dct (isendEntries (kv :: kvs)) =
          recvEntries kvs.length (recvInto 0 tmpKey kv.1.length kv.1)
            (recvInto 0 tmpVal kv.2.length kv.2)
            (dct.insert (recvInto 0 tmpKey kv.1.length kv.1)
              (recvInto 0 tmpVal kv.2.length kv.2)) (isendEntries kvs) := by
        rw [hmsgs]
        rfl
      rw [List.length_cons, hturn, ih, recvInto_length, recvInto_length]
      rfl

theorem recv_isend (dct : Dict Str (List ℚ)) :
    recv ∅ (isend dct) =
      some ((arrived [] [] (Dict.pairs dct)).foldl (fun d kv => d.insert kv.1 kv.2) ∅) :=
  recvEntries_isendEntries (Dict.pairs dct) [] [] ∅

section Arrived

variable {dct : Dict Str (List ℚ)}

/-- Entries with the same keys are the same if those of the one list are in the other. -/
theorem eq_of_keys_eq {K V : Type} {kvs kvs' : List (K × V)} (hnodup : (kvs.map Prod.fst).Nodup)
    (hkeys : kvs'.map Prod.fst = kvs.map Prod.fst) (hmem : ∀ kv ∈ kvs', kv ∈ kvs) : kvs' = kvs := by
  have hlen : kvs'.length = kvs.length := by simpa using congrArg List.length hkeys
  apply List.ext_getElem hlen
  intro i hi hi'
  have hkey : kvs'[i].1 = kvs[i].1 := by
    have hfst := List.getElem_of_eq hkeys (by simpa using hi)
    simpa using hfst
  exact List.inj_on_of_nodup_map hnodup (hmem _ (List.getElem_mem hi)) (List.getElem_mem hi') hkey

theorem arrived_eq_self_iff (kvs : List (Str × List ℚ)) :
    arrived [] [] kvs = kvs ↔ Filled (kvs.map Prod.fst) ∧ Filled (kvs.map Prod.snd) := by
  rw [← carry_nil_eq_self_iff, ← carry_nil_eq_self_iff]
  have hlen : (carry [] (kvs.map Prod.fst)).length = (carry [] (kvs.map Prod.snd)).length := by
    rw [length_carry, length_carry, List.length_map, List.length_map]
  constructor
  · intro h
    constructor
    · rw [← List.map_fst_zip hlen.le]
      exact congrArg (List.map Prod.fst) h
    · rw [← List.map_snd_zip hlen.ge]
      exact congrArg (List.map Prod.snd) h
  · rintro ⟨hfst, hsnd⟩
    rw [arrived, hfst, hsnd]
    exact (List.zip_of_prod rfl rfl).symm

/-- No list that is empty at all is behind another one. -/
theorem filled_of_forall_ne_nil {α : Type} {msgs : List (List α)} (h : ∀ msg ∈ msgs, msg ≠ []) :
    Filled msgs :=
  List.pairwise_of_forall_mem_list fun _ _ _ hmsg' _ => h _ hmsg'

/-- If the empty key arrives, it was the first one. -/
theorem filled_keys (h : ∀ val, dct.lookup [] = some val →
    [] ∈ carry [] ((Dict.pairs dct).map Prod.fst)) : Filled ((Dict.pairs dct).map Prod.fst) := by
  have hnodup := Dict.pairs_nodup dct
  have hmem : [] ∈ (Dict.pairs dct).map Prod.fst →
      [] ∈ carry [] ((Dict.pairs dct).map Prod.fst) := by
    intro hkey
    obtain ⟨⟨key, val⟩, hkv, rfl⟩ := List.mem_map.mp hkey
    exact h val (Dict.mem_pairs.mp hkv)
  generalize (Dict.pairs dct).map Prod.fst = keys at *
  cases keys with
  | nil => exact List.Pairwise.nil
  | cons key keys =>
      by_cases hkey : key = []
      · -- the keys are distinct, so there is no other empty one
        subst hkey
        refine List.pairwise_cons.mpr ⟨fun _ _ hne => absurd rfl hne, ?_⟩
        refine filled_of_forall_ne_nil fun msg hmsg hnil => ?_
        exact (List.nodup_cons.mp hnodup).1 (hnil ▸ hmsg)
      · have hall : [] ∉ carry [] (key :: keys) := by
          rw [carry, if_neg hkey, List.mem_cons, not_or]
          exact ⟨Ne.symm hkey, fun hcarry => ne_nil_of_mem_carry hkey hcarry rfl⟩
        exact filled_of_forall_ne_nil fun msg hmsg hnil => hall (hmem (hnil ▸ hmsg))

end Arrived

/-- The dict is received as it was sent exactly when, in its iteration order, no empty key comes
    behind one that is not empty, and no empty list behind one that is not. -/
theorem recv_isend_dict_iff (dct : Dict Str (List ℚ)) :
    (∃ dct', recv ∅ (isend dct) = some dct' ∧ ∀ key, dct'.lookup key = dct.lookup key) ↔
      Filled ((Dict.pairs dct).map Prod.fst) ∧ Filled ((Dict.pairs dct).map Prod.snd) := by
  rw [recv_isend, ← arrived_eq_self_iff]
  constructor
  · rintro ⟨dct', hdct', hlookup⟩
    cases hdct'
    have hfst : (arrived [] [] (Dict.pairs dct)).map Prod.fst =
        carry [] ((Dict.pairs dct).map Prod.fst) := by
      refine List.map_fst_zip ?_
      rw [length_carry, length_carry, List.length_map, List.length_map]
    have hkeys : carry [] ((Dict.pairs dct).map Prod.fst) = (Dict.pairs dct).map Prod.fst := by
      refine (carry_nil_eq_self_iff _).mpr (filled_keys fun val hval => ?_)
      by_contra hnot
      have hnone := hlookup []
      rw [Kvs.lookup_foldl_insert_of_notMem (by rwa [hfst]), hval] at hnone
      cases hnone
    have hnodup : ((arrived [] [] (Dict.pairs dct)).map Prod.fst).Nodup := by
      rw [hfst, hkeys]
      exact Dict.pairs_nodup dct
    refine eq_of_keys_eq (Dict.pairs_nodup dct) (hfst.trans hkeys) ?_
    rintro ⟨key, val⟩ hkv
    rw [Dict.mem_pairs, ← hlookup]
    exact Kvs.lookup_foldl_insert_of_nodup hnodup ∅ hkv
  · intro harrived
    refine ⟨_, rfl, fun key => ?_⟩
    rw [harrived, Kvs.lookup_foldl_insert, AList.lookup_empty, Option.or_none]

/-- Two keys, of which the one that is met second has no values. -/
def emptyList : Dict Str (List ℚ) :=
  AList.insert (lit "a") [1] (AList.insert (lit "b") [] ∅)

/-- The key without values gets those of the key before it. -/
theorem not_recv_isend_emptyList :
    ¬∀ dct : Dict Str (List ℚ),
      ∃ dct', recv ∅ (isend dct) = some dct' ∧ ∀ key, dct'.lookup key = dct.lookup key := by
  intro hall
  obtain ⟨dct', hdct', hlookup⟩ := hall emptyList
  have hreceived : (recv ∅ (isend emptyList)).map (fun d => d.lookup (lit "b")) =
      some (some [1]) := by decide +kernel
  rw [hdct', Option.map_some, hlookup] at hreceived
  exact absurd hreceived (by decide +kernel)

end Paracel.DictTransport
