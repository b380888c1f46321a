import Mathlib.Data.List.Sort
import Paracel.Types
import Paracel.Ring.Bsearch

/-!
# The hash ring

`paracel::ring` of `include/ring.hpp`. A server has one point on the ring for
each replica. The points are a sorted vector, in which a point can stand more
than once, and the dictionary has the server of each point.
-/

namespace Paracel

/-- What the ring takes from elsewhere: what `operator<<` prints of a server name, and the
    hash of a string. -/
structure RingEnv (T H : Type) where
  print : T → Str
  hfunc : Str → H

/-- `paracel::ring`. -/
structure HashRing (T H : Type) where
  replicas : Int := 32
  srvHashring : List H := []
  srvHashringDct : Dict H T := ∅

/-- The name of the `i`-th virtual node of a server. -/
def RingEnv.virtualNode {T H : Type} (env : RingEnv T H) (name : T) (i : Nat) : Str :=
  env.print name ++ lit ":" ++ toStr i

namespace HashRing

variable {T H : Type} [LinearOrder H]

/-- The key of the `i`-th virtual node of a server. -/
def virtualKey (env : RingEnv T H) (name : T) (i : Nat) : H :=
  env.hfunc (env.virtualNode name i)

/-- `ring::add_server`. -/
def addServer (env : RingEnv T H) (r : HashRing T H) (name : T) : HashRing T H :=
  let r' := (List.range r.replicas.toNat).foldl (fun r i =>
    { r with
      srvHashringDct := r.srvHashringDct.insert (virtualKey env name i) name
      srvHashring := r.srvHashring ++ [virtualKey env name i] }) r
  { r' with srvHashring := r'.srvHashring.insertionSort (· ≤ ·) }

/-- `ring::remove_server`; `erase` drops the first copy of a point, if there is one. -/
def removeServer (env : RingEnv T H) (r : HashRing T H) (name : T) : HashRing T H :=
  (List.range r.replicas.toNat).foldl (fun r i =>
    { r with
      srvHashringDct := r.srvHashringDct.erase (virtualKey env name i)
      srvHashring := r.srvHashring.erase (virtualKey env name i) }) r

/-- `ring::get_server`, where `hfunc` is the hash of the key's type. The subscript of the
    dictionary inserts `T()` for a point that has no entry. An empty ring has no result. -/
def getServer [Inhabited T] {P : Type} (hfunc : P → H) (r : HashRing T H) (skey : P) :
    Option (T × HashRing T H) :=
  match ringBsearch r.srvHashring (hfunc skey) with
  | none => none
  | some i =>
      match r.srvHashring[i]? with
      | none => none
      | some server =>
          match r.srvHashringDct.lookup server with
          | some name => some (name, r)
          | none => some (default,
              { r with srvHashringDct := r.srvHashringDct.insert server default })

/-- The constructors, with the default of 32 replicas or with `cp` of them. -/
def ofNames (env : RingEnv T H) (names : List T) (cp : Int) : HashRing T H :=
  names.foldl (addServer env) { replicas := cp }

/-- The points of a server on a ring with this many replicas. -/
def points (env : RingEnv T H) (replicas : Int) (name : T) : List H :=
  (List.range replicas.toNat).map (virtualKey env name)

/-! ### What the loops do -/

section Loops

variable (env : RingEnv T H) (r : HashRing T H) (name : T)

private theorem addLoop (l : List Nat) :
    l.foldl (fun r i =>
      { r with
        srvHashringDct := r.srvHashringDct.insert (virtualKey env name i) name
        srvHashring := r.srvHashring ++ [virtualKey env name i] }) r =
      { r with
        srvHashringDct :=
          (l.map (virtualKey env name)).foldl (fun d key => d.insert key name) r.srvHashringDct
        srvHashring := r.srvHashring ++ l.map (virtualKey env name) } := by
  induction l generalizing r with
  | nil => simp
  | cons i l ih => simp [ih]

private theorem removeLoop (l : List Nat) :
    l.foldl (fun r i =>
      { r with
        srvHashringDct := r.srvHashringDct.erase (virtualKey env name i)
        srvHashring := r.srvHashring.erase (virtualKey env name i) }) r =
      { r with
        srvHashringDct :=
          (l.map (virtualKey env name)).foldl (fun d key => d.erase key) r.srvHashringDct
        srvHashring := (l.map (virtualKey env name)).foldl List.erase r.srvHashring } := by
  induction l generalizing r with
  | nil => rfl
  | cons i l ih => exact ih _

private theorem lookup_foldl_insert_const (l : List H) (d : Dict H T) (p : H) :
    (l.foldl (fun d key => d.insert key name) d).lookup p =
      if p ∈ l then some name else d.lookup p := by
  induction l generalizing d with
  | nil => simp
  | cons key l ih =>
      rw [List.foldl_cons, ih]
      by_cases hl : p ∈ l
      · simp [hl]
      · by_cases hp : p = key
        · subst hp
          simp [hl]
        · simp [hl, hp]

private theorem lookup_foldl_erase (l : List H) (d : Dict H T) (p : H) :
    (l.foldl (fun d key => d.erase key) d).lookup p = if p ∈ l then none else d.lookup p := by
  induction l generalizing d with
  | nil => simp
  | cons key l ih =>
      rw [List.foldl_cons, ih]
      by_cases hl : p ∈ l
      · simp [hl]
      · by_cases hp : p = key
        · subst hp
          simp [hl]
        · simp [hl, hp]

@[simp] theorem addServer_replicas : (addServer env r name).replicas = r.replicas := by
  rw [addServer, addLoop]

@[simp] theorem removeServer_replicas : (removeServer env r name).replicas = r.replicas := by
  rw [removeServer, removeLoop]

@[simp] theorem lookup_addServer (p : H) :
    (addServer env r name).srvHashringDct.lookup p =
      if p ∈ points env r.replicas name then some name else r.srvHashringDct.lookup p := by
  rw [addServer, addLoop]
  exact lookup_foldl_insert_const name _ _ p

@[simp] theorem lookup_removeServer (p : H) :
    (removeServer env r name).srvHashringDct.lookup p =
      if p ∈ points env r.replicas name then none else r.srvHashringDct.lookup p := by
  rw [removeServer, removeLoop]
  exact lookup_foldl_erase _ _ p

theorem addServer_srvHashring : (addServer env r name).srvHashring =
    (r.srvHashring ++ points env r.replicas name).insertionSort (· ≤ ·) := by
  rw [addServer, addLoop]
  rfl

theorem removeServer_srvHashring : (removeServer env r name).srvHashring =
    r.srvHashring.diff (points env r.replicas name) := by
  rw [removeServer, removeLoop, List.diff_eq_foldl]
  rfl

@[simp] theorem count_addServer (p : H) :
    (addServer env r name).srvHashring.count p =
      r.srvHashring.count p + (points env r.replicas name).count p := by
  rw [addServer_srvHashring, (List.perm_insertionSort _ _).count_eq, List.count_append]

@[simp] theorem count_removeServer (p : H) :
    (removeServer env r name).srvHashring.count p =
      r.srvHashring.count p - (points env r.replicas name).count p := by
  rw [removeServer_srvHashring, List.count_diff]

theorem addServer_sorted : (addServer env r name).srvHashring.Pairwise (· ≤ ·) := by
  rw [addServer_srvHashring]
  exact List.pairwise_insertionSort _ _

theorem removeServer_sorted (h : r.srvHashring.Pairwise (· ≤ ·)) :
    (removeServer env r name).srvHashring.Pairwise (· ≤ ·) := by
  rw [removeServer_srvHashring]
  exact h.sublist (List.diff_sublist _ _)

end Loops

end HashRing

end Paracel
