import Mathlib.Data.Set.Function
import Mathlib.Logic.Function.Basic
import Paracel.Ring.HashRing

/-!
# Which servers a ring has

After any calls of `add_server` and `remove_server` each server has the same
number of copies of each of its points, and a dictionary entry for each of them
if its last call was an `add`. A key is routed to the server of the cyclic
successor of its hash, or to `T()` when only the point is left of that server.
-/

namespace Paracel

open CyclicSucc

namespace HashRing

variable {T H : Type}

/-- These servers print differently, and no two of their virtual nodes have one hash. -/
structure NoCollision (env : RingEnv T H) (replicas : Int) (servers : Set T) : Prop where
  names : servers.InjOn env.print
  hashes : {n | ∃ s ∈ servers, ∃ i, i < replicas.toNat ∧ n = env.virtualNode s i}.InjOn env.hfunc

/-! ### Points of different servers -/

private theorem colon_notMem_toStr (i : Nat) : (58 : UInt8) ∉ toStr i := by
  intro hmem
  exact absurd (mem_toStr hmem).2 (by decide)

/-- The digits after the last colon are the number of the replica. -/
theorem virtualNode_inj {env : RingEnv T H} {s s' : T} {i j : Nat}
    (h : env.virtualNode s i = env.virtualNode s' j) : env.print s = env.print s' ∧ i = j := by
  unfold RingEnv.virtualNode at h
  have hcolon : lit ":" = [58] := rfl
  rw [hcolon, List.append_assoc, List.append_assoc] at h
  rcases List.append_eq_append_iff.mp h with ⟨a, hprint, hrest⟩ | ⟨a, hprint, hrest⟩
  · cases a with
    | nil =>
        simp only [List.nil_append, List.append_cancel_left_eq] at hrest
        exact ⟨by simpa using hprint.symm, toStr_injective hrest⟩
    | cons b a =>
        simp only [List.cons_append, List.nil_append, List.cons.injEq] at hrest
        apply absurd _ (colon_notMem_toStr i)
        rw [hrest.2]
        simp
  · cases a with
    | nil =>
        simp only [List.nil_append, List.append_cancel_left_eq] at hrest
        exact ⟨by simpa using hprint, (toStr_injective hrest).symm⟩
    | cons b a =>
        simp only [List.cons_append, List.nil_append, List.cons.injEq] at hrest
        apply absurd _ (colon_notMem_toStr j)
        rw [hrest.2]
        simp

theorem mem_points {env : RingEnv T H} {replicas : Int} {s : T} {p : H} :
    p ∈ points env replicas s ↔ ∃ i, i < replicas.toNat ∧ virtualKey env s i = p := by
  simp [points]

section Points

variable {env : RingEnv T H} {replicas : Int} {servers : Set T}

theorem NoCollision.virtualKey_inj (hno : NoCollision env replicas servers) {s s' : T}
    {i j : Nat} (hs : s ∈ servers) (hs' : s' ∈ servers) (hi : i < replicas.toNat)
    (hj : j < replicas.toNat) (h : virtualKey env s i = virtualKey env s' j) : s = s' ∧ i = j := by
  have hnode := hno.hashes ⟨s, hs, i, hi, rfl⟩ ⟨s', hs', j, hj, rfl⟩ h
  rcases virtualNode_inj hnode with ⟨hprint, hij⟩
  exact ⟨hno.names hs hs' hprint, hij⟩

theorem NoCollision.nodup (hno : NoCollision env replicas servers) {s : T} (hs : s ∈ servers) :
    (points env replicas s).Nodup := by
  apply List.Nodup.map_on _ List.nodup_range
  intro i hi j hj h
  exact (hno.virtualKey_inj hs hs (List.mem_range.mp hi) (List.mem_range.mp hj) h).2

/-- A point has one server. -/
theorem NoCollision.owner (hno : NoCollision env replicas servers) {s s' : T} {p : H}
    (hs : s ∈ servers) (hs' : s' ∈ servers) (hp : p ∈ points env replicas s)
    (hp' : p ∈ points env replicas s') : s = s' := by
  rcases mem_points.mp hp with ⟨i, hi, rfl⟩
  rcases mem_points.mp hp' with ⟨j, hj, h⟩
  exact (hno.virtualKey_inj hs hs' hi hj h.symm).1

theorem NoCollision.mono {servers' : Set T} (hno : NoCollision env replicas servers)
    (h : servers' ⊆ servers) : NoCollision env replicas servers' where
  names := hno.names.mono h
  hashes := by
    apply hno.hashes.mono
    rintro n ⟨s, hs, i, hi, hn⟩
    exact ⟨s, h hs, i, hi, hn⟩

end Points

/-! ### The representation -/

variable [LinearOrder H]

/-- Each server has `copies s` copies of each of its points, and an entry for each if it is
    present. -/
structure Holds (env : RingEnv T H) (servers : Set T) (r : HashRing T H) (copies : T → Nat)
    (present : T → Bool) : Prop where
  sorted : r.srvHashring.Pairwise (· ≤ ·)
  known : ∀ p ∈ r.srvHashring, ∃ s ∈ servers, p ∈ points env r.replicas s
  count : ∀ s ∈ servers, ∀ p ∈ points env r.replicas s, r.srvHashring.count p = copies s
  entry : ∀ s ∈ servers, ∀ p ∈ points env r.replicas s,
    r.srvHashringDct.lookup p = if present s then some s else none

section Holds

variable [DecidableEq T] {env : RingEnv T H} {servers : Set T} {r : HashRing T H}
  {copies : T → Nat} {present : T → Bool} {name : T}

omit [DecidableEq T] in
theorem holds_empty (env : RingEnv T H) (servers : Set T) (replicas : Int) :
    Holds env servers { replicas := replicas } (fun _ => 0) (fun _ => false) where
  sorted := List.Pairwise.nil
  known := by
    intro p hp
    cases hp
  count := by
    intro s _ p _
    rfl
  entry := by
    intro s _ p _
    rfl

theorem Holds.addServer (hno : NoCollision env r.replicas servers)
    (h : Holds env servers r copies present) (hname : name ∈ servers) :
    Holds env servers (r.addServer env name) (Function.update copies name (copies name + 1))
      (Function.update present name true) where
  sorted := addServer_sorted env r name
  known := by
    intro p hp
    rw [addServer_replicas]
    rw [addServer_srvHashring, List.mem_insertionSort, List.mem_append] at hp
    rcases hp with hp | hp
    · exact h.known p hp
    · exact ⟨name, hname, hp⟩
  count := by
    intro s hs p hp
    rw [addServer_replicas] at hp
    rw [count_addServer, h.count s hs p hp]
    by_cases hsn : s = name
    · subst hsn
      rw [Function.update_self, List.count_eq_one_of_mem (hno.nodup hs) hp]
    · rw [Function.update_of_ne hsn, List.count_eq_zero_of_not_mem, Nat.add_zero]
      intro hp'
      exact hsn (hno.owner hs hname hp hp')
  entry := by
    intro s hs p hp
    rw [addServer_replicas] at hp
    rw [lookup_addServer]
    by_cases hsn : s = name
    · subst hsn
      rw [if_pos hp, Function.update_self, if_pos rfl]
    · have hp' : p ∉ points env r.replicas name := fun hp' => hsn (hno.owner hs hname hp hp')
      rw [if_neg hp', Function.update_of_ne hsn]
      exact h.entry s hs p hp

theorem Holds.removeServer (hno : NoCollision env r.replicas servers)
    (h : Holds env servers r copies present) (hname : name ∈ servers) :
    Holds env servers (r.removeServer env name) (Function.update copies name (copies name - 1))
      (Function.update present name false) where
  sorted := removeServer_sorted env r name h.sorted
  known := by
    intro p hp
    rw [removeServer_replicas]
    rw [removeServer_srvHashring] at hp
    exact h.known p ((List.diff_sublist _ _).subset hp)
  count := by
    intro s hs p hp
    rw [removeServer_replicas] at hp
    rw [count_removeServer, h.count s hs p hp]
    by_cases hsn : s = name
    · subst hsn
      rw [Function.update_self, List.count_eq_one_of_mem (hno.nodup hs) hp]
    · rw [Function.update_of_ne hsn, List.count_eq_zero_of_not_mem, Nat.sub_zero]
      intro hp'
      exact hsn (hno.owner hs hname hp hp')
  entry := by
    intro s hs p hp
    rw [removeServer_replicas] at hp
    rw [lookup_removeServer]
    by_cases hsn : s = name
    · subst hsn
      rw [if_pos hp, Function.update_self, if_neg Bool.false_ne_true]
    · have hp' : p ∉ points env r.replicas name := fun hp' => hsn (hno.owner hs hname hp hp')
      rw [if_neg hp', Function.update_of_ne hsn]
      exact h.entry s hs p hp

end Holds

/-! ### Routing -/

/-- The server a key is routed to. -/
def route [Inhabited T] {P : Type} (hfunc : P → H) (r : HashRing T H) (skey : P) : Option T :=
  (getServer hfunc r skey).map Prod.fst

section Route

variable [Inhabited T] {env : RingEnv T H} {r : HashRing T H} {P : Type}

/-- A ring with points routes a key by the entry of the cyclic successor of its hash. -/
theorem route_of_sorted (hsorted : r.srvHashring.Pairwise (· ≤ ·)) (hne : r.srvHashring ≠ [])
    (hfunc : P → H) (skey : P) :
    ∃ p, IsSucc {q | q ∈ r.srvHashring} (hfunc skey) p ∧
      route hfunc r skey = some ((r.srvHashringDct.lookup p).getD default) := by
  rcases ringBsearch_spec hsorted hne (hfunc skey) with ⟨i, p, hi, hp, hsucc⟩
  refine ⟨p, hsucc, ?_⟩
  unfold route getServer
  simp only [hi, hp]
  cases r.srvHashringDct.lookup p with
  | none => rfl
  | some name => rfl

theorem route_of_nil (hnil : r.srvHashring = []) (hfunc : P → H) (skey : P) :
    route hfunc r skey = none := by
  simp [route, getServer, ringBsearch, hnil]

end Route

section Entry

variable [Inhabited T] {env : RingEnv T H} {servers : Set T} {r : HashRing T H}
  {copies : T → Nat} {present : T → Bool} {s : T}

omit [Inhabited T] in
theorem Holds.mem_of_copies (h : Holds env servers r copies present) (hs : s ∈ servers)
    (hcopies : 0 < copies s) {p : H} (hp : p ∈ points env r.replicas s) : p ∈ r.srvHashring := by
  apply List.count_pos_iff.mp
  rw [h.count s hs p hp]
  exact hcopies

/-- A key is routed to a server whose points are on the ring, or to `T()` if this server is not
    present. -/
theorem Holds.exists_route (h : Holds env servers r copies present) (hne : r.srvHashring ≠ [])
    {P : Type} (hfunc : P → H) (skey : P) : ∃ s, 0 < copies s ∧
      route hfunc r skey = some (if present s then s else default) := by
  rcases route_of_sorted h.sorted hne hfunc skey with ⟨p, hsucc, hroute⟩
  rcases h.known p hsucc.mem with ⟨s, hs, hp⟩
  refine ⟨s, ?_, ?_⟩
  · rw [← h.count s hs p hp]
    exact List.count_pos_iff.mpr hsucc.mem
  · rw [hroute, h.entry s hs p hp]
    cases present s <;> rfl

/-- A key with the hash of a point is routed to the server of that point. -/
theorem Holds.route_point (h : Holds env servers r copies present) (hs : s ∈ servers)
    (hcopies : 0 < copies s) {p : H} (hp : p ∈ points env r.replicas s) :
    route id r p = some (if present s then s else default) := by
  have hmem := h.mem_of_copies hs hcopies hp
  rcases route_of_sorted h.sorted (List.ne_nil_of_mem hmem) id p with ⟨q, hsucc, hroute⟩
  obtain rfl : q = p := hsucc.unique (isSucc_self hmem)
  rw [hroute, h.entry s hs q hp]
  cases present s <;> rfl

omit [Inhabited T] in
theorem Holds.srvHashring_of_not_pos (h : Holds env servers r copies present)
    (hneg : ¬0 < r.replicas) : r.srvHashring = [] := by
  apply List.eq_nil_iff_forall_not_mem.mpr
  intro p hp
  rcases h.known p hp with ⟨s, -, hps⟩
  rcases mem_points.mp hps with ⟨i, hi, -⟩
  omega

end Entry

/-! ### Calls -/

/-- A call that changes the ring. -/
inductive Call (T : Type) where
  | add (name : T)
  | remove (name : T)

/-- The server the call is about. -/
def Call.name : Call T → T
  | .add name | .remove name => name

/-- Performs one call. -/
def perform (env : RingEnv T H) (r : HashRing T H) : Call T → HashRing T H
  | .add name => r.addServer env name
  | .remove name => r.removeServer env name

/-- The ring after the calls, from an empty one. -/
def performAll (env : RingEnv T H) (replicas : Int) (calls : List (Call T)) : HashRing T H :=
  calls.foldl (perform env) { replicas := replicas }

section Calls

variable [DecidableEq T]

/-- What a call makes of the number of copies of each server's points. -/
def Call.copies (c : T → Nat) : Call T → T → Nat
  | .add name => Function.update c name (c name + 1)
  | .remove name => Function.update c name (c name - 1)

/-- What a call makes of the presence of each server. -/
def Call.present (b : T → Bool) : Call T → T → Bool
  | .add name => Function.update b name true
  | .remove name => Function.update b name false

/-- How often the server was added and not removed again; a `remove` of what is not there
    counts for nothing. -/
def copies (calls : List (Call T)) : T → Nat :=
  calls.foldl Call.copies fun _ => 0

/-- The last call of the server was an `add`. -/
def present (calls : List (Call T)) : T → Bool :=
  calls.foldl Call.present fun _ => false

variable {env : RingEnv T H} {servers : Set T}

theorem Holds.performAll {calls : List (Call T)} {r : HashRing T H} {c : T → Nat} {b : T → Bool}
    (hno : NoCollision env r.replicas servers) (h : Holds env servers r c b)
    (hcalls : ∀ call ∈ calls, call.name ∈ servers) :
    (calls.foldl (perform env) r).replicas = r.replicas ∧
      Holds env servers (calls.foldl (perform env) r) (calls.foldl Call.copies c)
        (calls.foldl Call.present b) := by
  induction calls generalizing r c b with
  | nil => exact ⟨rfl, h⟩
  | cons call calls ih =>
      have hname : call.name ∈ servers := hcalls call List.mem_cons_self
      have hrest : ∀ call' ∈ calls, call'.name ∈ servers := fun call' hcall' =>
        hcalls call' (List.mem_cons_of_mem call hcall')
      cases call with
      | add name =>
          rcases ih (by simpa [perform] using hno) (h.addServer hno hname) hrest with ⟨hrep, hholds⟩
          exact ⟨hrep.trans (addServer_replicas env r name), hholds⟩
      | remove name =>
          rcases ih (by simpa [perform] using hno) (h.removeServer hno hname) hrest with
            ⟨hrep, hholds⟩
          exact ⟨hrep.trans (removeServer_replicas env r name), hholds⟩

theorem holds_performAll {replicas : Int} {calls : List (Call T)}
    (hno : NoCollision env replicas servers) (hcalls : ∀ call ∈ calls, call.name ∈ servers) :
    (performAll env replicas calls).replicas = replicas ∧
      Holds env servers (performAll env replicas calls) (copies calls) (present calls) :=
  (holds_empty env servers replicas).performAll hno hcalls

/-- A server that is present has at least one copy of its points. -/
theorem copies_pos_of_present {calls : List (Call T)} {s : T} (h : present calls s = true) :
    0 < copies calls s := by
  have hrun : ∀ (c : T → Nat) (b : T → Bool), (b s = true → 0 < c s) →
      calls.foldl Call.present b s = true → 0 < calls.foldl Call.copies c s := by
    clear h
    induction calls with
    | nil =>
        intro c b hbc
        exact hbc
    | cons call calls ih =>
        intro c b hbc
        apply ih
        cases call with
        | add name =>
            by_cases hs : s = name
            · subst hs
              simp [Call.copies]
            · simpa [Call.copies, Call.present, hs] using hbc
        | remove name =>
            by_cases hs : s = name
            · subst hs
              simp [Call.present]
            · simpa [Call.copies, Call.present, hs] using hbc
  exact hrun _ _ (by simp) h

/-- What no call names has neither copies nor a last call. -/
theorem named_of_copies_pos {calls : List (Call T)} {s : T} (h : 0 < copies calls s) :
    ∃ call ∈ calls, call.name = s := by
  by_contra hnone
  have hrun : ∀ c : T → Nat, calls.foldl Call.copies c s = c s := by
    clear h
    induction calls with
    | nil =>
        intro c
        rfl
    | cons call calls ih =>
        intro c
        have hs : s ≠ call.name := fun hs => hnone ⟨call, List.mem_cons_self, hs.symm⟩
        have hrest : ¬∃ call ∈ calls, call.name = s := by
          rintro ⟨call', hcall', hs'⟩
          exact hnone ⟨call', List.mem_cons_of_mem call hcall', hs'⟩
        rw [List.foldl_cons, ih hrest]
        cases call with
        | add name => exact Function.update_of_ne hs _ _
        | remove name => exact Function.update_of_ne hs _ _
  rw [copies, hrun] at h
  exact Nat.lt_irrefl 0 h

/-- After the calls every key, of any type and hash, is routed to a server that is present. -/
def RoutesToPresent [Inhabited T] (env : RingEnv T H) (replicas : Int) (calls : List (Call T)) :
    Prop :=
  ∀ (P : Type) (hfunc : P → H) (skey : P), ∃ s, present calls s = true ∧
    route hfunc (performAll env replicas calls) skey = some s

/-- Once a server is present, every key is routed to a present server exactly when there are
    replicas, and each server that is not present was removed as often as it was added
    (or is not missed, because `T()` is present). -/
theorem membership_iff [Inhabited T] (replicas : Int) (calls : List (Call T))
    (hno : NoCollision env replicas {s | ∃ call ∈ calls, call.name = s})
    (hsome : ∃ s, present calls s = true) :
    (∀ (P : Type) (hfunc : P → H) (skey : P), ∃ s, present calls s = true ∧
      route hfunc (performAll env replicas calls) skey = some s) ↔
    0 < replicas ∧ (present calls default = true ∨
      ∀ s, present calls s = false → copies calls s = 0) := by
  rcases holds_performAll hno fun call hcall => ⟨call, hcall, rfl⟩ with ⟨hrep, hholds⟩
  generalize performAll env replicas calls = r at hrep hholds ⊢
  subst hrep
  have hhas : 0 < r.replicas → ∀ s, virtualKey env s 0 ∈ points env r.replicas s := by
    intro hpos s
    exact mem_points.mpr ⟨0, by omega, rfl⟩
  constructor
  · intro hall
    have hpos : 0 < r.replicas := by
      by_contra hneg
      rcases hall Unit (fun _ => env.hfunc []) () with ⟨s, -, hroute⟩
      rw [route_of_nil (hholds.srvHashring_of_not_pos hneg)] at hroute
      cases hroute
    refine ⟨hpos, ?_⟩
    by_contra hnot
    rw [not_or, not_forall] at hnot
    rcases hnot with ⟨hdefault, s, hs⟩
    rw [Classical.not_imp] at hs
    -- a point of `s` is left without its entry; a key with this very hash gets `T()`
    have hcopies : 0 < copies calls s := Nat.pos_of_ne_zero hs.2
    have hroute := hholds.route_point (named_of_copies_pos hcopies) hcopies (hhas hpos s)
    rcases hall H id (virtualKey env s 0) with ⟨s', hs', hroute'⟩
    rw [hroute', hs.1] at hroute
    cases hroute
    exact hdefault hs'
  · rintro ⟨hpos, hclean⟩ P hfunc skey
    rcases hsome with ⟨s₀, hs₀⟩
    have hcopies₀ := copies_pos_of_present hs₀
    have hmem := hholds.mem_of_copies (named_of_copies_pos hcopies₀) hcopies₀ (hhas hpos s₀)
    rcases hholds.exists_route (List.ne_nil_of_mem hmem) hfunc skey with ⟨s, hcopies, hroute⟩
    cases hpres : present calls s with
    | true =>
        rw [hpres] at hroute
        exact ⟨s, hpres, hroute⟩
    | false =>
        rw [hpres] at hroute
        rcases hclean with hdefault | hzero
        · exact ⟨default, hdefault, hroute⟩
        · exact absurd (hzero s hpres) hcopies.ne'

end Calls

/-- Servers named by numbers, and a hash that reads a string as a number. -/
def numberEnv : RingEnv Int Nat where
  print := intStr
  hfunc := List.foldl (fun h b => 256 * h + b.toNat) 0

/-- Server 2 is added twice and removed once. -/
def addedTwice : List (Call Int) := [.add 1, .add 2, .add 2, .remove 2]

/-- Server 2 is removed as often as it was added. -/
def removedTwice : List (Call Int) := [.add 1, .add 2, .remove 2, .remove 2]

theorem noCollision_numberEnv :
    NoCollision numberEnv 1 {s | s = 1 ∨ s = 2 ∨ s = 3} where
  names := intStr_injective.injOn
  hashes := by
    rintro n ⟨s, hs, i, hi, rfl⟩ n' ⟨s', hs', j, hj, rfl⟩ h
    obtain rfl : i = 0 := by simpa using hi
    obtain rfl : j = 0 := by simpa using hj
    rcases hs with rfl | rfl | rfl <;> rcases hs' with rfl | rfl | rfl <;>
      first | rfl | exact absurd h (by decide)

theorem membership_iff_removedTwice :
    RoutesToPresent numberEnv 1 removedTwice ↔
      0 < (1 : Int) ∧ (present removedTwice default = true ∨
        ∀ s, present removedTwice s = false → copies removedTwice s = 0) := by
  apply membership_iff 1 removedTwice
  · apply noCollision_numberEnv.mono
    rintro s ⟨call, hcall, rfl⟩
    simp only [removedTwice, List.mem_cons, List.not_mem_nil, or_false] at hcall
    rcases hcall with rfl | rfl | rfl | rfl <;> simp [Call.name]
  · exact ⟨1, by decide⟩

/-- The key with the hash of the leftover copy of `2:0` gets server 0, which nobody added. -/
theorem not_routesToPresent_addedTwice :
    NoCollision numberEnv 1 {s | ∃ call ∈ addedTwice, call.name = s} ∧
      (∃ s, present addedTwice s = true) ∧ ¬RoutesToPresent numberEnv 1 addedTwice := by
  refine ⟨?_, ⟨1, by decide⟩, ?_⟩
  · apply noCollision_numberEnv.mono
    rintro s ⟨call, hcall, rfl⟩
    simp only [addedTwice, List.mem_cons, List.not_mem_nil, or_false] at hcall
    rcases hcall with rfl | rfl | rfl | rfl <;> simp [Call.name]
  · intro h
    rcases h Nat id (virtualKey numberEnv 2 0) with ⟨s, hs, hroute⟩
    have hzero : route id (performAll numberEnv 1 addedTwice) (virtualKey numberEnv 2 0) =
        some 0 := by decide
    rw [hzero] at hroute
    cases hroute
    exact absurd hs (by decide)

end HashRing

end Paracel
