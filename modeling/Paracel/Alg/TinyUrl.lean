import Mathlib.Data.Nat.Digits.Lemmas
import Paracel.Misc.Run
import Paracel.Ps.Calls
import Paracel.Ps.Paralg

/-!
# Short URLs

`tiny_url` (`alg/tiny_url/tiny_url.hpp`). The short URL of a long one is its
hash modulo `62^6`, written in six characters, and that number is also the key
under which the servers keep the long one. Nothing is done about two long URLs
with the same number: what counts is which of them was inserted last.
-/

namespace Paracel.TinyUrl

open StepSystem

variable {n m : Nat}

/-- `dictory[i]`. -/
def dictory (i : Nat) : UInt8 :=
  if i < 10 then UInt8.ofNat (i + 48)
  else if i < 36 then UInt8.ofNat (i - 10 + 97)
  else UInt8.ofNat (i - 36 + 65)

/-- `bnd`, which is `pow(62, 6)`. -/
def bnd : Nat := 62 ^ 6

/-- The characters that `while(skey > 0)` pushes. -/
def remainders (skey : Nat) : Str :=
  if 0 < skey then dictory (skey % 62) :: remainders (skey / 62) else []
termination_by skey
decreasing_by omega

/-- `compute` of a number, padded to six characters. -/
def compute (skey : Nat) : Str :=
  let shortURL := remainders skey
  (shortURL ++ List.replicate (6 - shortURL.length) 48).reverse

/-- The number that a character of a short URL stands for. -/
def charNumber (c : UInt8) : Nat :=
  if 48 ≤ c ∧ c ≤ 57 then c.toNat - 48
  else if 97 ≤ c ∧ c ≤ 122 then c.toNat - 97 + 10
  else if 65 ≤ c ∧ c ≤ 90 then c.toNat - 65 + 36
  else 0

/-- `compute` of a short URL; `check_validate` lets only six characters through. The powers
    of 62 and the sums are below `2^53`, so `pow` is exact. -/
def computeBack (shortURL : Str) : Nat :=
  (List.range 6).foldl (fun skey i => skey + charNumber (shortURL.getD i 0) * 62 ^ (6 - i - 1)) 0

section Calls

variable (lib : Libs Str) (getServer : Str → Fin m) (hf : Str → Nat)

/-- The parameter calls of a worker on the servers that all workers share; `tiny_url` does not
    turn `ssp_switch` on. -/
def worker (servers : Servers m Str) : Paralg m Str :=
  { sspSwitch := false, kvm := servers }

/-- `insert`: the short URL and the servers after it. -/
def insert (servers : Servers m Str) (longURL : Str) : Option (Str × Servers m Str) :=
  let skey := hf longURL % bnd
  (Paralg.paracelWrite lib getServer (worker servers) (toStr skey) longURL).map fun (_, p) =>
    (compute skey, p.kvm)

/-- `retrieve`; `none` where the `pull` asserts that the key exists. -/
def retrieve (servers : Servers m Str) (shortURL : Str) : Option Str :=
  (Paralg.paracelRead lib getServer (worker servers) (toStr (computeBack shortURL))).bind Prod.fst

/-- A worker of `n` inserts a URL. -/
def step (servers : Servers m Str) (e : Fin n × Str) : Option (Servers m Str) :=
  (insert lib getServer hf servers e.2).map Prod.snd

end Calls

/-! ### Six characters -/

theorem charNumber_dictory {i : Nat} (hi : i < 62) : charNumber (dictory i) = i := by
  have hall : ∀ j : Fin 62, charNumber (dictory j) = j := by decide
  exact hall ⟨i, hi⟩

theorem remainders_digits (skey : Nat) :
    (remainders skey).map charNumber = Nat.digits 62 skey := by
  induction skey using Nat.strongRecOn with
  | ind skey ih =>
      rw [remainders]
      split
      · rename_i hpos
        rw [List.map_cons, charNumber_dictory (Nat.mod_lt _ (by omega)),
          ih (skey / 62) (by omega), Nat.digits_def' (by omega) hpos]
      · rename_i hzero
        obtain rfl : skey = 0 := by omega
        rfl

theorem length_remainders {skey : Nat} (h : skey < bnd) : (remainders skey).length ≤ 6 := by
  have hlen := congrArg List.length (remainders_digits skey)
  rw [List.length_map] at hlen
  rw [hlen]
  exact (Nat.digits_length_le_iff (by omega) skey).mpr h

theorem length_compute {skey : Nat} (h : skey < bnd) : (compute skey).length = 6 := by
  have hle := length_remainders h
  simp only [compute, List.length_reverse, List.length_append, List.length_replicate]
  omega

/-- Six characters are the digits of a number, the last one lowest. -/
theorem computeBack_eq {s : Str} (h : s.length = 6) :
    computeBack s = Nat.ofDigits 62 (s.reverse.map charNumber) := by
  match s, h with
  | [a, b, c, d, e, f], _ =>
      simp only [computeBack, List.range, List.range.loop, List.foldl_cons, List.foldl_nil,
        List.getD_cons_zero, List.getD_cons_succ, List.reverse_cons, List.reverse_nil,
        List.nil_append, List.cons_append, List.map_cons, List.map_nil, Nat.ofDigits_cons,
        Nat.ofDigits_nil]
      omega

/-- A code leads back to the number it was made of. -/
theorem computeBack_compute {skey : Nat} (h : skey < bnd) : computeBack (compute skey) = skey := by
  rw [computeBack_eq (length_compute h), compute, List.reverse_reverse, List.map_append,
    remainders_digits, List.map_replicate, show charNumber 48 = 0 by decide,
    Nat.ofDigits_append_replicate_zero, Nat.ofDigits_digits]

/-- The characters `0-9a-zA-Z`. -/
def UrlChar (c : UInt8) : Prop :=
  (48 ≤ c ∧ c ≤ 57) ∨ (97 ≤ c ∧ c ≤ 122) ∨ (65 ≤ c ∧ c ≤ 90)

instance (c : UInt8) : Decidable (UrlChar c) :=
  inferInstanceAs (Decidable (_ ∨ _ ∨ _))

theorem urlChar_dictory {i : Nat} (hi : i < 62) : UrlChar (dictory i) := by
  have hall : ∀ j : Fin 62, UrlChar (dictory j) := by decide
  exact hall ⟨i, hi⟩

theorem charNumber_lt (c : UInt8) : charNumber c < 62 := by
  simp only [charNumber, UInt8.le_iff_toNat_le, UInt8.reduceToNat]
  split
  · omega
  · split
    · omega
    · split <;> omega

/-- Each character stands for a number of its own. -/
theorem dictory_charNumber {c : UInt8} (hc : UrlChar c) : dictory (charNumber c) = c := by
  simp only [UrlChar, UInt8.le_iff_toNat_le, UInt8.reduceToNat] at hc
  rw [← UInt8.toNat_inj]
  rcases hc with hdigit | hlower | hupper
  · have hnumber : charNumber c = c.toNat - 48 := by
      simp only [charNumber, UInt8.le_iff_toNat_le, UInt8.reduceToNat]
      exact if_pos hdigit
    rw [hnumber, dictory, if_pos (by omega), UInt8.toNat_ofNat']
    omega
  · have hnumber : charNumber c = c.toNat - 97 + 10 := by
      simp only [charNumber, UInt8.le_iff_toNat_le, UInt8.reduceToNat]
      rw [if_neg (by omega), if_pos hlower]
    rw [hnumber, dictory, if_neg (by omega), if_pos (by omega), UInt8.toNat_ofNat']
    omega
  · have hnumber : charNumber c = c.toNat - 65 + 36 := by
      simp only [charNumber, UInt8.le_iff_toNat_le, UInt8.reduceToNat]
      rw [if_neg (by omega), if_neg (by omega), if_pos hupper]
    rw [hnumber, dictory, if_neg (by omega), if_neg (by omega), UInt8.toNat_ofNat']
    omega

theorem urlChar_remainders {skey : Nat} {c : UInt8} (hc : c ∈ remainders skey) : UrlChar c := by
  induction skey using Nat.strongRecOn with
  | ind skey ih =>
      rw [remainders] at hc
      split at hc
      · rcases List.mem_cons.mp hc with rfl | hrest
        · exact urlChar_dictory (Nat.mod_lt _ (by omega))
        · exact ih (skey / 62) (by omega) hrest
      · cases hc

theorem urlChar_compute {skey : Nat} {c : UInt8} (hc : c ∈ compute skey) : UrlChar c := by
  rw [compute, List.mem_reverse, List.mem_append, List.mem_replicate] at hc
  rcases hc with hrem | ⟨-, rfl⟩
  · exact urlChar_remainders hrem
  · decide

theorem computeBack_lt {s : Str} (h : s.length = 6) : computeBack s < bnd := by
  have hlt := Nat.ofDigits_lt_base_pow_length (b := 62) (l := s.reverse.map charNumber)
    (by omega) (List.forall_mem_map.mpr fun c _ => charNumber_lt c)
  rwa [← computeBack_eq h, List.length_map, List.length_reverse, h] at hlt

/-- Six characters of the alphabet are recovered from their number. -/
theorem computeBack_injective {s t : Str} (hs : s.length = 6) (ht : t.length = 6)
    (hsc : ∀ c ∈ s, UrlChar c) (htc : ∀ c ∈ t, UrlChar c)
    (heq : computeBack s = computeBack t) : s = t := by
  rw [computeBack_eq hs, computeBack_eq ht] at heq
  have hdigits : s.reverse.map charNumber = t.reverse.map charNumber :=
    Nat.ofDigits_inj_of_len_eq (by omega) (by simp [hs, ht])
      (List.forall_mem_map.mpr fun c _ => charNumber_lt c)
      (List.forall_mem_map.mpr fun c _ => charNumber_lt c) heq
  have hmap := congrArg (List.map dictory) hdigits
  have hback : ∀ u : Str, (∀ c ∈ u, UrlChar c) →
      (u.reverse.map charNumber).map dictory = u.reverse := by
    intro u hu
    rw [List.map_map]
    exact (List.map_congr_left fun c hc => dictory_charNumber (hu c (List.mem_reverse.mp hc))).trans
      (List.map_id _)
  rw [hback s hsc, hback t htc] at hmap
  exact List.reverse_injective hmap

/-- Numbers below `62^6` and strings of six characters `0-9a-zA-Z` are two forms of one thing:
    the two directions of `compute` undo each other. -/
theorem compute_round_trips :
    (∀ skey : Nat, skey < 62 ^ 6 → (compute skey).length = 6 ∧ (∀ c ∈ compute skey, UrlChar c) ∧
      computeBack (compute skey) = skey) ∧
    ∀ s : Str, s.length = 6 → (∀ c ∈ s, UrlChar c) →
      compute (computeBack s) = s ∧ computeBack s < 62 ^ 6 := by
  refine ⟨?_, ?_⟩
  · intro skey hskey
    exact ⟨length_compute hskey, fun c hc => urlChar_compute hc, computeBack_compute hskey⟩
  · intro s hlen hchars
    have hlt := computeBack_lt hlen
    refine ⟨?_, hlt⟩
    exact computeBack_injective (length_compute hlt) hlen (fun c hc => urlChar_compute hc) hchars
      (computeBack_compute hlt)

/-- A small number, whose code is padded, and a code of all three ranges. -/
theorem compute_round_trips_padded :
    (compute 63 = lit "000011" ∧ computeBack (compute 63) = 63) ∧
      compute (computeBack (lit "0aZ9zA")) = lit "0aZ9zA" :=
  ⟨⟨by simp [compute, remainders]; decide, (compute_round_trips.1 63 (by decide)).2.2⟩,
    (compute_round_trips.2 (lit "0aZ9zA") (by decide)
      (List.forall_iff_forall_mem.mp (by decide))).1⟩

/-! ### What the servers hold -/

section Servers

variable {lib : Libs Str} {getServer : Str → Fin m} {hf : Str → Nat} {servers : Servers m Str}

variable (lib getServer hf servers) in
/-- An insert never fails. -/
theorem exists_insert (longURL : Str) : ∃ servers',
    insert lib getServer hf servers longURL = some (compute (hf longURL % bnd), servers') := by
  simp only [insert, Paralg.paracelWrite, Kvclt.push_eq]
  exact ⟨_, rfl⟩

/-- The code that is returned, and the one key that is written. -/
theorem insert_spec {longURL s : Str} {servers' : Servers m Str}
    (h : insert lib getServer hf servers longURL = some (s, servers')) :
    s = compute (hf longURL % bnd) ∧ ∀ key, servers'.value getServer key =
      if key = toStr (hf longURL % bnd) then some longURL else servers.value getServer key := by
  simp only [insert, Paralg.paracelWrite, Kvclt.push_eq, Option.map_some, Option.some.injEq,
    Prod.mk.injEq] at h
  rcases h with ⟨rfl, rfl⟩
  refine ⟨rfl, ?_⟩
  intro key
  rw [Paralg.setServer_kvm, Servers.value]
  by_cases hserver : getServer key = getServer (toStr (hf longURL % bnd))
  · rw [hserver, Function.update_self, Kvclt.tblStore_push, Kvs.get_set, Servers.value, hserver]
    rfl
  · have hkey : key ≠ toStr (hf longURL % bnd) := fun hk => hserver (hk ▸ rfl)
    rw [Function.update_of_ne hserver, if_neg hkey]
    rfl

theorem retrieve_eq (s : Str) :
    retrieve lib getServer servers s = servers.value getServer (toStr (computeBack s)) := by
  simp only [retrieve, Paralg.paracelRead, Kvclt.pull_eq]
  rfl

/-- Retrieving the code of a number reads the key of that number. -/
theorem retrieve_compute {skey : Nat} (h : skey < bnd) :
    retrieve lib getServer servers (compute skey) = servers.value getServer (toStr skey) := by
  rw [retrieve_eq, computeBack_compute h]

/-- Two long URLs with one number share their code and their key. -/
def Collide (hf : Str → Nat) (u v : Str) : Prop :=
  hf u % bnd = hf v % bnd

instance (hf : Str → Nat) (u v : Str) : Decidable (Collide hf u v) :=
  inferInstanceAs (Decidable (_ = _))

theorem key_eq_iff {u v : Str} :
    toStr (hf u % bnd) = toStr (hf v % bnd) ↔ Collide hf u v := by
  rw [toStr_injective.eq_iff]
  exact Iff.rfl

/-- After a run of inserts a key holds the last URL with its number, if there is one. -/
theorem value_run {later : List (Fin n × Str)} {servers' : Servers m Str}
    (h : run (step lib getServer hf) servers later = some servers') (u : Str) :
    servers'.value getServer (toStr (hf u % bnd)) =
      ((later.map Prod.snd).reverse.find? fun v => Collide hf u v).or
        (servers.value getServer (toStr (hf u % bnd))) := by
  induction later generalizing servers with
  | nil =>
      cases h
      rfl
  | cons e later ih =>
      rcases Option.bind_eq_some_iff.mp h with ⟨mid, hstep, hrun⟩
      rcases Option.map_eq_some_iff.mp hstep with ⟨⟨s, mid'⟩, hinsert, rfl⟩
      have hvalue := (insert_spec hinsert).2 (toStr (hf u % bnd))
      rw [ih hrun, hvalue, List.map_cons, List.reverse_cons, List.find?_append, Option.or_assoc]
      congr 1
      by_cases hc : Collide hf u e.2
      · rw [if_pos (key_eq_iff.mpr hc), List.find?_singleton, if_pos (decide_eq_true hc)]
        rfl
      · rw [if_neg (fun hk => hc (key_eq_iff.mp hk)), List.find?_singleton,
          if_neg (by simpa using hc)]
        rfl

variable (lib getServer hf) in
/-- A run of inserts never fails. -/
theorem exists_run (later : List (Fin n × Str)) (servers : Servers m Str) :
    ∃ servers', run (step lib getServer hf) servers later = some servers' := by
  induction later generalizing servers with
  | nil => exact ⟨servers, rfl⟩
  | cons e later ih =>
      rcases exists_insert lib getServer hf servers e.2 with ⟨mid, hinsert⟩
      rcases ih mid with ⟨servers', hrun⟩
      refine ⟨servers', ?_⟩
      rw [run_cons, step, hinsert]
      exact hrun

/-- The code of an insert leads, after any further inserts, to the last URL with its number. -/
theorem retrieve_run {e : Fin n × Str} {post : List (Fin n × Str)} {s : Str}
    {servers' final : Servers m Str}
    (hinsert : insert lib getServer hf servers e.2 = some (s, servers'))
    (hrun : run (step lib getServer hf) servers' post = some final) :
    retrieve lib getServer final s =
      ((e :: post).map Prod.snd).reverse.find? fun v => Collide hf e.2 v := by
  rcases insert_spec hinsert with ⟨rfl, hvalue⟩
  have hself : decide (Collide hf e.2 e.2) = true := decide_eq_true rfl
  rw [retrieve_compute (Nat.mod_lt _ (by decide)), value_run hrun, hvalue, if_pos rfl,
    List.map_cons, List.reverse_cons, List.find?_append, List.find?_singleton, if_pos hself]

end Servers

section Runs

variable (lib : Libs Str) (getServer : Str → Fin m) (hf : Str → Nat)

/-- The code that an insert returns leads to its URL in every later state of the run. -/
def StaysValid (servers : Servers m Str) (es : List (Fin n × Str)) : Prop :=
  ∀ pre e post st s st' t, pre ++ e :: post <+: es →
    run (step lib getServer hf) servers pre = some st →
    insert lib getServer hf st e.2 = some (s, st') →
    run (step lib getServer hf) st' post = some t → retrieve lib getServer t s = some e.2

/-- Without a collision all short URLs of a run stay valid, and only then. -/
theorem staysValid_iff (servers : Servers m Str) (es : List (Fin n × Str)) :
    StaysValid lib getServer hf servers es ↔
      ∀ e ∈ es, ∀ e' ∈ es, Collide hf e.2 e'.2 → e.2 = e'.2 := by
  constructor
  · intro hvalid
    have hpair : es.Pairwise fun e e' => Collide hf e.2 e'.2 → e.2 = e'.2 := by
      rw [List.pairwise_iff_forall_sublist]
      intro e e' hsub hc
      -- after `e'` the code of `e` leads to the URL of `e'`
      rcases List.cons_sublist_iff.mp hsub with ⟨es₁, es₂, rfl, he, he'⟩
      rcases List.append_of_mem he with ⟨pre, mid₁, rfl⟩
      rcases List.append_of_mem (List.singleton_sublist.mp he') with ⟨mid₂, rest, rfl⟩
      rcases exists_run lib getServer hf pre servers with ⟨st, hst⟩
      rcases exists_insert lib getServer hf st e.2 with ⟨st', hinsert⟩
      rcases exists_run lib getServer hf (mid₁ ++ (mid₂ ++ [e'])) st' with ⟨t, ht⟩
      have hlast := retrieve_run hinsert ht
      rw [hvalid pre e (mid₁ ++ (mid₂ ++ [e'])) st _ st' t ⟨rest, by simp⟩ hst hinsert ht] at hlast
      simpa [hc] using hlast
    have hsymm : Std.Symm fun e e' : Fin n × Str => Collide hf e.2 e'.2 → e.2 = e'.2 :=
      ⟨fun _ _ h hc => (h hc.symm).symm⟩
    exact hpair.forall_of_forall fun e _ _ => rfl
  · intro hno pre e post st s st' t hpre hst hinsert ht
    have hmem : ∀ e' ∈ e :: post, e' ∈ es := fun e' he' =>
      hpre.subset (List.mem_append_right pre he')
    rw [retrieve_run hinsert ht]
    cases hfind : ((e :: post).map Prod.snd).reverse.find? fun v => Collide hf e.2 v with
    | none =>
        rw [List.find?_eq_none] at hfind
        exact absurd (decide_eq_true (p := Collide hf e.2 e.2) rfl) (hfind e.2 (by simp))
    | some v =>
        have hc : Collide hf e.2 v := by simpa using List.find?_some hfind
        have hv := List.mem_of_find?_eq_some hfind
        rw [List.mem_reverse, List.mem_map] at hv
        rcases hv with ⟨e', he', rfl⟩
        rw [hno e (hmem e List.mem_cons_self) e' (hmem e' he') hc]

/-- The code of an insert leads to the last URL inserted with the same number; so all codes
    of a run stay valid exactly if no two different URLs in it have the same number. -/
theorem retrieve_last_inserted (servers : Servers m Str) (es : List (Fin n × Str)) :
    (∀ pre e post st s st' t, pre ++ e :: post <+: es →
      run (step lib getServer hf) servers pre = some st →
      insert lib getServer hf st e.2 = some (s, st') →
      run (step lib getServer hf) st' post = some t →
      retrieve lib getServer t s =
        ((e :: post).map Prod.snd).reverse.find? fun v => hf e.2 % 62 ^ 6 = hf v % 62 ^ 6) ∧
    (StaysValid lib getServer hf servers es ↔
      ∀ e ∈ es, ∀ e' ∈ es, hf e.2 % 62 ^ 6 = hf e'.2 % 62 ^ 6 → e.2 = e'.2) :=
  ⟨fun _ _ _ _ _ _ _ _ _ hinsert ht => retrieve_run hinsert ht,
    staysValid_iff lib getServer hf servers es⟩

/-- No hash function keeps every run valid: there are more URLs than codes. -/
theorem exists_not_staysValid (servers : Servers m Str) (w : Fin n) :
    ∃ u v, ¬StaysValid lib getServer hf servers [(w, u), (w, v)] := by
  have hfinite : ∃ u v, u ≠ v ∧ Collide hf u v := by
    have h := Finite.exists_ne_map_eq_of_infinite fun u : Str =>
      (⟨hf u % bnd, Nat.mod_lt _ (by decide)⟩ : Fin bnd)
    rcases h with ⟨u, v, hne, heq⟩
    exact ⟨u, v, hne, Fin.mk.inj heq⟩
  rcases hfinite with ⟨u, v, hne, hc⟩
  refine ⟨u, v, ?_⟩
  rw [staysValid_iff]
  intro hno
  exact hne (hno (w, u) (by simp) (w, v) (by simp) hc)

end Runs

/-- The libraries of a program that calls no updater. -/
def noLibs : Libs Str :=
  { update := fun _ _ delta => delta, filter := fun _ _ _ => false }

/-- Two URLs of one length, which here is their hash: the second takes the code of the first. -/
theorem not_staysValid_twoUrls :
    ¬∀ (hf : Str → Nat) (es : List (Fin 2 × Str)),
      StaysValid noLibs (fun _ => (0 : Fin 1)) hf (fun _ => {}) es := by
  intro hall
  have hno := (staysValid_iff _ _ _ _ _).mp (hall List.length [(0, lit "ab"), (1, lit "ba")])
  exact absurd (hno (0, lit "ab") (by simp) (1, lit "ba") (by simp) rfl) (by decide)

end Paracel.TinyUrl
