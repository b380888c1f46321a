import Paracel.Ps.Calls
import Paracel.Ps.Paralg

/-!
# Word count

`alg/word_count`: three ways to count the words of the lines that the workers
hold, one bupdate for each occurrence, one for each word that a worker has, or
the words of a worker merged into ten dictionaries. A method is its calls with a
barrier between each two lists of calls. The reads that follow the last barrier
do not change the servers, so a method ends with an empty list. Counts are
integers without bound.
-/

namespace Paracel.WordCount

open MergeFold StepSystem

/-- `local_update`. -/
def localUpdate (a b : Int) : Int := a + b

/-- `local_update2`: the counts of `b` are added to those of `a`. -/
def localUpdate2 (a b : Dict Str Int) : Dict Str Int :=
  (Dict.pairs b).foldl (fun r kv =>
    match r.lookup kv.1 with
    | some v => r.insert kv.1 (v + kv.2)
    | none => r.insert kv.1 kv.2) a

/-- The library of the updaters. -/
def wcUpdateSo : Str := lit "/mfs/user/wuhong/paracel/local/lib/libwc_update.so"

/-- `wc_updater`. -/
def wcUpdater : Symbol := ⟨wcUpdateSo, lit "wc_updater"⟩

/-- `wc_updater2`. -/
def wcUpdater2 : Symbol := ⟨wcUpdateSo, lit "wc_updater2"⟩

/-- The updaters on packed counts: `wc_updater`, and `paracel_incr_i` as the default. -/
def wcLib (other : Libs Int) : Libs Int :=
  { other with
    update := fun func =>
      if func = wcUpdater then localUpdate
      else if func = defaultIncrI then (· + ·)
      else other.update func }

/-- The updater on packed dictionaries. -/
def wcLib2 (other : Libs (Dict Str Int)) : Libs (Dict Str Int) :=
  { other with
    update := fun func => if func = wcUpdater2 then localUpdate2 else other.update func }

/-- The characters that `[^-a-zA-Z0-9_]` does not match. -/
def isWordChar (c : UInt8) : Bool :=
  c = 45 || (97 ≤ c && c ≤ 122) || (65 ≤ c && c ≤ 90) || (48 ≤ c && c ≤ 57) || c = 95

/-- `word_count::parser`. -/
def parser (line : Str) : List Str :=
  (line.splitOnP fun c => !isWordChar c).filter fun w => decide (w ≠ [])

/-- `normal_learning`. -/
def normalLearning (lines : List Str) : List (List (Call Int)) :=
  [ lines.flatMap fun line =>
      (parser line).map fun word => .bupdate word 1 (some wcUpdater),
    [] ]

/-- One word in the loop that fills `tmp`. -/
def countWord (tmp : Dict Str Int) (word : Str) : Dict Str Int :=
  match tmp.lookup word with
  | some v => tmp.insert word (v + 1)
  | none => tmp.insert word 1

/-- `tmp`: how often each word occurs in the lines of a worker. -/
def localTotals (lines : List Str) : Dict Str Int :=
  lines.foldl (fun tmp line => (parser line).foldl countWord tmp) ∅

/-- `noraml_learning_with_combine`. -/
def noramlLearningWithCombine (lines : List Str) : List (List (Call Int)) :=
  [ (Dict.pairs (localTotals lines)).map fun wc => .bupdate wc.1 wc.2 none,
    [] ]

/-- `dct_sz`. -/
def dctSz : Nat := 10

/-- `hfunc(kv.first) % dct_sz`. -/
def bucket (hfunc : Str → Nat) (word : Str) : Fin dctSz :=
  ⟨hfunc word % dctSz, Nat.mod_lt _ (by decide)⟩

/-- `local_vd`: each word goes to the dictionary of its bucket. -/
def localVd (hfunc : Str → Nat) (lines : List Str) : Fin dctSz → Dict Str Int :=
  Paralg.dctLst (bucket hfunc) (localTotals lines)

/-- `"key_" + std::to_string(k)`. -/
def bucketKey (k : Fin dctSz) : Str :=
  lit "key_" ++ toStr k

/-- `optimized_learning`. -/
def optimizedLearning (hfunc : Str → Nat) (lines : List Str) : List (List (Call (Dict Str Int))) :=
  [ [],
    (List.finRange dctSz).map fun k =>
      .bupdate (bucketKey k) (localVd hfunc lines k) (some wcUpdater2),
    [] ]

/-- `solve` with one of the methods: a barrier before it and one after it. -/
def solve {V : Type} (learning : List Str → List (List (Call V))) (lines : List Str) :
    List (List (Call V)) :=
  [] :: (learning lines ++ [[]])

/-- The states of a program on empty servers. -/
abbrev WcState (n m : Nat) (V : Type) :=
  Spmd.State n (List (List (Call V))) (Call V) (Servers m V)

variable {n m : Nat}

/-- The workers run a program from empty servers, and some worker is past the barrier before
    its last two lists of calls. -/
def AfterBarrier {V : Type} [Inhabited V] (lib : Libs V) (getServer : Str → Fin m)
    (prog : Fin n → List (List (Call V))) (st : WcState n m V) : Prop :=
  Reachable (Spmd.step (fun _ => Spmd.straight) (Servers.perform lib getServer))
    { loc := prog, store := fun _ => {} } st ∧ ∃ w, (st.loc w).length ≤ 2

/-- The occurrences of a word in the lines of all workers. -/
def occurrences (lines : Fin n → List Str) (word : Str) : Nat :=
  ((List.finRange n).flatMap fun w => (lines w).flatMap parser).count word

/-- What is on record for a word that occurs `c` times. -/
def record (c : Nat) : Option Int :=
  if c = 0 then none else some c

/-! ### Local totals -/

theorem lookup_countWord (tmp : Dict Str Int) (x word : Str) :
    (countWord tmp x).lookup word =
      if word = x then some ((tmp.lookup word).getD 0 + 1) else tmp.lookup word := by
  unfold countWord
  by_cases hw : word = x
  · subst hw
    rw [if_pos rfl]
    cases tmp.lookup word <;> simp
  · rw [if_neg hw]
    cases tmp.lookup x <;> exact AList.lookup_insert_ne hw

/-- The loop over words adds what it meets. -/
theorem lookup_countWords (words : List Str) (tmp : Dict Str Int) (word : Str) :
    (words.foldl countWord tmp).lookup word =
      if words.count word = 0 then tmp.lookup word
      else some ((tmp.lookup word).getD 0 + words.count word) := by
  induction words generalizing tmp with
  | nil => simp
  | cons x words ih =>
      rw [List.foldl_cons, ih, lookup_countWord]
      by_cases hx : word = x
      · subst hx
        simp only [if_true, List.count_cons_self, Nat.add_eq_zero_iff, Nat.one_ne_zero, and_false,
          if_false, Option.getD_some]
        by_cases hcount : words.count word = 0
        · simp [hcount]
        · rw [if_neg hcount]
          push_cast
          rw [add_assoc, add_comm (1 : Int)]
      · rw [if_neg hx, List.count_cons_of_ne (Ne.symm hx)]

theorem lookup_localTotals (lines : List Str) (word : Str) :
    (localTotals lines).lookup word = record ((lines.flatMap parser).count word) := by
  have hwords : localTotals lines = (lines.flatMap parser).foldl countWord ∅ := by
    rw [localTotals, List.foldl_flatMap]
  rw [hwords, lookup_countWords, record, AList.lookup_empty]
  by_cases hcount : (lines.flatMap parser).count word = 0 <;> simp [hcount]

/-! ### Adding up the deltas of all workers -/

/-- A worker's deltas for a word add up to its count, and there are none without an
    occurrence. -/
structure Amounts (ds : List Int) (c : Nat) : Prop where
  sum : ds.sum = c
  eq_nil : c = 0 → ds = []

theorem Amounts.ne_nil {ds : List Int} {c : Nat} (h : Amounts ds c) (hc : c ≠ 0) : ds ≠ [] := by
  rintro rfl
  have hsum := h.sum
  rw [List.sum_nil] at hsum
  omega

theorem amounts_replicate (c : Nat) : Amounts (List.replicate c 1) c where
  sum := by simp
  eq_nil := by
    rintro rfl
    rfl

theorem amounts_record (c : Nat) : Amounts (record c).toList c where
  sum := by
    unfold record
    by_cases hc : c = 0 <;> simp [hc]
  eq_nil := by
    rintro rfl
    rfl

theorem Amounts.append {ds es : List Int} {c d : Nat} (hds : Amounts ds c) (hes : Amounts es d) :
    Amounts (ds ++ es) (c + d) where
  sum := by
    rw [List.sum_append, hds.sum, hes.sum]
    push_cast
    rfl
  eq_nil := by
    intro h
    rw [hds.eq_nil (by omega), hes.eq_nil (by omega)]
    rfl

theorem amounts_flatMap {ds : Fin n → List Int} {lines : Fin n → List Str} {word : Str}
    (h : ∀ w, Amounts (ds w) (((lines w).flatMap parser).count word)) :
    Amounts ((List.finRange n).flatMap ds) (occurrences lines word) := by
  have hall : ∀ ws : List (Fin n), Amounts (ws.flatMap ds)
      ((ws.flatMap fun w => (lines w).flatMap parser).count word) := by
    intro ws
    induction ws with
    | nil => exact ⟨rfl, fun _ => rfl⟩
    | cons w ws ih =>
        rw [List.flatMap_cons, List.flatMap_cons, List.count_append]
        exact (h w).append ih
  exact hall _

/-- Merged into an empty server, they leave the count on record. -/
theorem mergeAll_amounts {ds es : List Int} {c : Nat} (hperm : ds.Perm es) (h : Amounts es c) :
    mergeAll (· + ·) none ds = record c := by
  rw [mergeAll_perm _ _ hperm, mergeAll_add, record]
  by_cases hc : c = 0
  · rw [if_pos hc, if_pos (h.eq_nil hc)]
  · rw [if_neg hc, if_neg (h.ne_nil hc), h.sum]

/-! ### The three methods -/

theorem deltasOf_normal (lines : List Str) (word : Str) :
    deltasOf word ((normalLearning lines).flatten.flatMap Call.pairs) =
      List.replicate ((lines.flatMap parser).count word) 1 := by
  have hpairs : (normalLearning lines).flatten.flatMap Call.pairs =
      (lines.flatMap parser).map fun x => (x, 1) := by
    rw [← pairs_bupdates (fun x => x) (fun _ => 1) (some wcUpdater), List.map_flatMap]
    simp [normalLearning]
  rw [hpairs]
  generalize lines.flatMap parser = words
  induction words with
  | nil => rfl
  | cons x words ih =>
      rw [List.map_cons, deltasOf_cons, ih]
      by_cases hx : x = word
      · subst hx
        rw [if_pos rfl, List.count_cons_self, List.replicate_succ]
      · rw [if_neg hx, List.count_cons_of_ne hx]

theorem deltasOf_combine (lines : List Str) (word : Str) :
    deltasOf word ((noramlLearningWithCombine lines).flatten.flatMap Call.pairs) =
      (record ((lines.flatMap parser).count word)).toList := by
  have hpairs : (noramlLearningWithCombine lines).flatten.flatMap Call.pairs =
      Dict.pairs (localTotals lines) := by
    simp [noramlLearningWithCombine, pairs_bupdates]
  rw [hpairs, deltasOf_of_nodup word (Dict.pairs_nodup _), Kvs.find?_pairs, lookup_localTotals]

theorem bucketKey_injective : Function.Injective bucketKey := by
  intro j k h
  exact Fin.ext (toStr_injective (List.append_cancel_left h))

/-- The deltas of one worker for a key: the dictionary of the bucket with that key. -/
theorem deltasOf_optimized (hfunc : Str → Nat) (lines : List Str) (key : Str) :
    deltasOf key ((optimizedLearning hfunc lines).flatten.flatMap Call.pairs) =
      ((List.finRange dctSz).filter fun k => bucketKey k = key).map (localVd hfunc lines) := by
  have hpairs : (optimizedLearning hfunc lines).flatten.flatMap Call.pairs =
      (List.finRange dctSz).map fun k => (bucketKey k, localVd hfunc lines k) := by
    simp [optimizedLearning, pairs_bupdates]
  rw [hpairs]
  generalize List.finRange dctSz = ks
  induction ks with
  | nil => rfl
  | cons k ks ih =>
      rw [List.map_cons, deltasOf_cons, ih, List.filter_cons]
      by_cases hk : bucketKey k = key <;> simp [hk]

theorem lookup_localVd (hfunc : Str → Nat) (lines : List Str) (k : Fin dctSz) (word : Str) :
    (localVd hfunc lines k).lookup word =
      if bucket hfunc word = k then record ((lines.flatMap parser).count word) else none := by
  rw [localVd, Paralg.lookup_dctLst, lookup_localTotals]

/-- What the deltas of a worker for a key say about a word. -/
theorem seen_optimized (hfunc : Str → Nat) (lines : List Str) (key word : Str) :
    ((deltasOf key ((optimizedLearning hfunc lines).flatten.flatMap Call.pairs)).filterMap
      fun d => d.lookup word) =
    if key = bucketKey (bucket hfunc word) then
      (record ((lines.flatMap parser).count word)).toList
    else [] := by
  rw [deltasOf_optimized, List.filterMap_map]
  by_cases hkey : key = bucketKey (bucket hfunc word)
  · have hone : ((List.finRange dctSz).filter fun k => bucketKey k = key) =
        [bucket hfunc word] := by
      subst hkey
      simp only [bucketKey_injective.eq_iff]
      rw [List.filter_eq, List.count_eq_one_of_mem (List.nodup_finRange _) (List.mem_finRange _)]
      rfl
    rw [if_pos hkey, hone]
    have hlookup := lookup_localVd hfunc lines (bucket hfunc word) word
    rw [if_pos rfl] at hlookup
    cases hrec : record ((lines.flatMap parser).count word) <;> simp [hlookup, hrec]
  · rw [if_neg hkey, List.filterMap_eq_nil_iff]
    intro k hk
    have hkk : bucketKey k = key := by simpa using (List.mem_filter.mp hk).2
    rw [Function.comp_apply, lookup_localVd, if_neg]
    rintro rfl
    exact hkey hkk.symm

/-! ### What is on the servers after the barrier -/

/-- Merging two dictionaries adds the counts of every word. -/
theorem lookup_localUpdate2 (word : Str) (a b : Dict Str Int) :
    (localUpdate2 a b).lookup word =
      Option.merge (· + ·) (a.lookup word) (b.lookup word) := by
  have hfold : ∀ (kvs : List (Str × Int)) (r : Dict Str Int), (kvs.map Prod.fst).Nodup →
      (kvs.foldl (fun r kv =>
        match r.lookup kv.1 with
        | some v => r.insert kv.1 (v + kv.2)
        | none => r.insert kv.1 kv.2) r).lookup word =
      Option.merge (· + ·) (r.lookup word)
        ((kvs.find? fun kv => kv.1 = word).map Prod.snd) := by
    intro kvs
    induction kvs with
    | nil => simp
    | cons kv kvs ih =>
        intro r hnodup
        rw [List.map_cons, List.nodup_cons] at hnodup
        rw [List.foldl_cons, ih _ hnodup.2]
        by_cases hw : kv.1 = word
        · subst hw
          have hrest : (kvs.find? fun kv' => kv'.1 = kv.1) = none := by
            rw [List.find?_eq_none]
            intro kv' hmem heq
            exact hnodup.1 (List.mem_map.mpr ⟨kv', hmem, by simpa using heq⟩)
          cases hr : r.lookup kv.1 <;> simp [hrest]
        · rw [List.find?_cons_of_neg (by simpa using hw)]
          cases hr : r.lookup kv.1 <;> simp [AList.lookup_insert_ne (Ne.symm hw)]
  rw [localUpdate2, hfold _ _ (Dict.pairs_nodup b), Kvs.find?_pairs]

/-- After the barrier a key has merged what all workers sent for it. -/
theorem AfterBarrier.value {V : Type} [Inhabited V] {lib : Libs V} {getServer : Str → Fin m}
    {f : V → V → V} {learning : List Str → List (List (Call V))} {lines : Fin n → List Str}
    {st : WcState n m V} (h : AfterBarrier lib getServer (fun w => solve learning (lines w)) st)
    (pre : List Str → List (List (Call V))) (k : Nat)
    (hpre : ∀ ls, learning ls = pre ls ++ [[]]) (hlen : ∀ ls, (pre ls).length = k)
    (hf : ∀ ls, ∀ c ∈ (learning ls).flatten,
      c.AppliedWith lib f (fun _ : Fin m => ({} : Server V))) (key : Str) :
    ∃ ds, ds.Perm ((List.finRange n).flatMap fun w =>
        deltasOf key ((learning (lines w)).flatten.flatMap Call.pairs)) ∧
      st.store.value getServer key = mergeAll f none ds := by
  have hprog : ∀ w, solve learning (lines w) =
      ([] :: pre (lines w)) ++ List.replicate 2 [] := by
    intro w
    simp [solve, hpre, List.replicate_succ]
  have hflat : ∀ ls, ([] :: pre ls).flatten = (learning ls).flatten := by
    intro ls
    simp [hpre]
  rcases Servers.value_straight hprog (by simp [hlen])
    (by
      intro w c hc
      rw [hflat] at hc
      exact hf (lines w) c hc) h.1 h.2 key with ⟨ds, hperm, hvalue⟩
  simp only [hflat] at hperm
  exact ⟨ds, hperm, hvalue⟩

variable {getServer : Str → Fin m} {lines : Fin n → List Str}

theorem normal_value {other : Libs Int} {st : WcState n m Int}
    (h : AfterBarrier (wcLib other) getServer (fun w => solve normalLearning (lines w)) st)
    (word : Str) : st.store.value getServer word = record (occurrences lines word) := by
  have hf : ∀ ls, ∀ c ∈ (normalLearning ls).flatten,
      c.AppliedWith (wcLib other) (· + ·) (fun _ : Fin m => ({} : Server Int)) := by
    intro ls c hc
    simp only [normalLearning, List.flatten_cons, List.flatten_nil, List.append_nil,
      List.mem_flatMap, List.mem_map] at hc
    rcases hc with ⟨line, -, x, -, rfl⟩
    intro i
    rfl
  rcases h.value (fun ls => [(normalLearning ls).flatten]) 1
    (by simp [normalLearning]) (fun _ => rfl) hf word with ⟨ds, hperm, hvalue⟩
  simp only [deltasOf_normal] at hperm
  rw [hvalue]
  exact mergeAll_amounts hperm (amounts_flatMap fun w => amounts_replicate _)

theorem combine_value {other : Libs Int} {st : WcState n m Int}
    (h : AfterBarrier (wcLib other) getServer
      (fun w => solve noramlLearningWithCombine (lines w)) st)
    (word : Str) : st.store.value getServer word = record (occurrences lines word) := by
  have hf : ∀ ls, ∀ c ∈ (noramlLearningWithCombine ls).flatten,
      c.AppliedWith (wcLib other) (· + ·) (fun _ : Fin m => ({} : Server Int)) := by
    intro ls c hc
    simp only [noramlLearningWithCombine, List.flatten_cons, List.flatten_nil, List.append_nil,
      List.mem_map] at hc
    rcases hc with ⟨wc, -, rfl⟩
    intro i
    rfl
  rcases h.value (fun ls => [(noramlLearningWithCombine ls).flatten]) 1
    (by simp [noramlLearningWithCombine]) (fun _ => rfl) hf word with ⟨ds, hperm, hvalue⟩
  simp only [deltasOf_combine] at hperm
  rw [hvalue]
  exact mergeAll_amounts hperm (amounts_flatMap fun w => amounts_record _)

/-- A word is counted in the dictionary of its bucket, and in no other dictionary on the
    servers. -/
theorem optimized_value {hfunc : Str → Nat} {other : Libs (Dict Str Int)}
    {st : WcState n m (Dict Str Int)}
    (h : AfterBarrier (wcLib2 other) getServer
      (fun w => solve (optimizedLearning hfunc) (lines w)) st)
    (key word : Str) : ((st.store.value getServer key).bind fun d => d.lookup word) =
      if key = bucketKey (bucket hfunc word) then record (occurrences lines word) else none := by
  have hf : ∀ ls, ∀ c ∈ (optimizedLearning hfunc ls).flatten,
      c.AppliedWith (wcLib2 other) localUpdate2
        (fun _ : Fin m => ({} : Server (Dict Str Int))) := by
    intro ls c hc
    simp only [optimizedLearning, List.flatten_cons, List.flatten_nil, List.append_nil,
      List.nil_append, List.mem_map] at hc
    rcases hc with ⟨k, -, rfl⟩
    intro i
    rfl
  rcases h.value (fun ls => [[], (optimizedLearning hfunc ls).flatten]) 2
    (by simp [optimizedLearning]) (fun _ => rfl) hf key with ⟨ds, hperm, hvalue⟩
  rw [hvalue, mergeAll_bind (lookup_localUpdate2 word), Option.bind_none]
  have hseen := hperm.filterMap fun d => d.lookup word
  rw [List.filterMap_flatMap] at hseen
  simp only [seen_optimized] at hseen
  by_cases hkey : key = bucketKey (bucket hfunc word)
  · simp only [if_pos hkey] at hseen ⊢
    exact mergeAll_amounts hseen (amounts_flatMap fun w => amounts_record _)
  · simp only [if_neg hkey] at hseen ⊢
    have hnil : ((List.finRange n).flatMap fun _ => ([] : List Int)) = [] := by simp
    rw [hnil] at hseen
    rw [hseen.eq_nil, mergeAll_nil]

/-- The barrier is reached, whatever the workers did before. -/
theorem exists_afterBarrier {V : Type} [Inhabited V] {lib : Libs V}
    (learning : List Str → List (List (Call V))) (k : Nat) (hn : 0 < n)
    (hlen : ∀ ls, (learning ls).length = k) {st : WcState n m V}
    (h : Reachable (Spmd.step (fun _ => Spmd.straight) (Servers.perform lib getServer))
      { loc := fun w => solve learning (lines w), store := fun _ => {} } st) :
    ∃ t, Reachable (Spmd.step (fun _ => Spmd.straight) (Servers.perform lib getServer)) st t ∧
      AfterBarrier lib getServer (fun w => solve learning (lines w)) t := by
  rcases Spmd.straight_complete hn (by simp [solve, hlen]) h with ⟨t, ht, hdone⟩
  refine ⟨t, ht, h.trans ht, ⟨0, hn⟩, ?_⟩
  have hlast := (hdone ⟨0, hn⟩).2
  omega

/-- Two workers with one line each. -/
def twoLines (w : Fin 2) : List Str :=
  if w.val = 0 then [lit "a b-1 a"] else [lit "b-1, a"]

/-- Shared libraries that hold the one updater for dictionaries under every symbol. -/
def dictLib : Libs (Dict Str Int) :=
  { update := fun _ => localUpdate2, filter := fun _ _ _ => true }

end Paracel.WordCount
