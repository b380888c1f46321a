import Paracel.Ring.Membership

/-!
# Consistent hashing

On a ring to which every server was added once, the server of a key is the one
whose point is the cyclic successor of its hash among the points of all servers.
So only the set of servers counts, a server that comes takes keys to itself
only, and a server that goes gives up its own keys only.
-/

namespace Paracel

open CyclicSucc

namespace HashRing

variable {T H : Type}

/-- The points of all these servers. -/
def pointSet (env : RingEnv T H) (replicas : Int) (servers : Set T) : Set H :=
  {q | ∃ s ∈ servers, q ∈ points env replicas s}

theorem pointSet_mono {env : RingEnv T H} {replicas : Int} {A B : Set T} (h : A ⊆ B) :
    pointSet env replicas A ⊆ pointSet env replicas B := by
  rintro q ⟨s, hs, hq⟩
  exact ⟨s, h hs, hq⟩

variable [LinearOrder H]

/-- The server of `A` that consistent hashing gives a hash to. -/
def Owner (env : RingEnv T H) (replicas : Int) (A : Set T) (h : H) (s : T) : Prop :=
  s ∈ A ∧ ∃ p ∈ points env replicas s, IsSucc (pointSet env replicas A) h p

/-- Fewer servers: whoever remains keeps what it had. -/
theorem Owner.subset {env : RingEnv T H} {replicas : Int} {A B : Set T} {h : H} {s : T}
    (ho : Owner env replicas B h s) (hAB : A ⊆ B) (hs : s ∈ A) : Owner env replicas A h s := by
  rcases ho with ⟨-, p, hp, hsucc⟩
  exact ⟨hs, p, hp, hsucc.subset (pointSet_mono hAB) ⟨s, hs, hp⟩⟩

section Once

variable [DecidableEq T] {env : RingEnv T H} {servers : Set T} {r : HashRing T H} {b : T → Bool}
  {name : T}

/-- The ring has the servers that `b` tells, each added once. -/
def Once (env : RingEnv T H) (servers : Set T) (r : HashRing T H) (b : T → Bool) : Prop :=
  Holds env servers r (fun s => if b s then 1 else 0) b

omit [DecidableEq T] in
theorem Once.mem_srvHashring (h : Once env servers r b) {q : H} :
    q ∈ r.srvHashring ↔ q ∈ pointSet env r.replicas {s | s ∈ servers ∧ b s = true} := by
  constructor
  · intro hq
    rcases h.known q hq with ⟨s, hs, hqs⟩
    have hcount : 0 < r.srvHashring.count q := List.count_pos_iff.mpr hq
    rw [h.count s hs q hqs] at hcount
    refine ⟨s, ⟨hs, ?_⟩, hqs⟩
    by_contra hb
    simp [hb] at hcount
  · rintro ⟨s, ⟨hs, hb⟩, hqs⟩
    apply List.count_pos_iff.mp
    rw [h.count s hs q hqs, if_pos hb]
    exact Nat.one_pos

theorem Once.addServer (hno : NoCollision env r.replicas servers) (h : Once env servers r b)
    (hname : name ∈ servers) (hb : b name = false) :
    Once env servers (r.addServer env name) (Function.update b name true) := by
  have hcopies : (fun s => if Function.update b name true s then 1 else 0) =
      Function.update (fun s => if b s then 1 else 0) name ((if b name then 1 else 0) + 1) := by
    funext s
    by_cases hs : s = name
    · subst hs
      simp [hb]
    · simp [hs]
  unfold Once
  rw [hcopies]
  exact Holds.addServer hno h hname

theorem Once.removeServer (hno : NoCollision env r.replicas servers) (h : Once env servers r b)
    (hname : name ∈ servers) :
    Once env servers (r.removeServer env name) (Function.update b name false) := by
  have hcopies : (fun s => if Function.update b name false s then 1 else 0) =
      Function.update (fun s => if b s then 1 else 0) name ((if b name then 1 else 0) - 1) := by
    funext s
    by_cases hs : s = name
    · subst hs
      cases b s <;> simp
    · simp [hs]
  unfold Once
  rw [hcopies]
  exact Holds.removeServer hno h hname

theorem once_foldl (hno : NoCollision env r.replicas servers) (h : Once env servers r b)
    {names : List T} (hnodup : names.Nodup) (hnames : ∀ s ∈ names, s ∈ servers)
    (hnew : ∀ s ∈ names, b s = false) :
    (names.foldl (HashRing.addServer env) r).replicas = r.replicas ∧
      Once env servers (names.foldl (HashRing.addServer env) r)
        (fun s => b s || decide (s ∈ names)) := by
  induction names generalizing r b with
  | nil => exact ⟨rfl, by simpa using h⟩
  | cons name names ih =>
      rw [List.nodup_cons] at hnodup
      have hadd := h.addServer hno (hnames name List.mem_cons_self) (hnew name List.mem_cons_self)
      have hrest : ∀ s ∈ names, Function.update b name true s = false := by
        intro s hs
        rw [Function.update_of_ne (ne_of_mem_of_not_mem hs hnodup.1)]
        exact hnew s (List.mem_cons_of_mem name hs)
      rcases ih (by simpa using hno) hadd hnodup.2
        (fun s hs => hnames s (List.mem_cons_of_mem name hs)) hrest with ⟨hrep, honce⟩
      refine ⟨hrep.trans (addServer_replicas env r name), ?_⟩
      have hb : (fun s => b s || decide (s ∈ name :: names)) =
          fun s => Function.update b name true s || decide (s ∈ names) := by
        funext s
        by_cases hs : s = name
        · subst hs
          simp
        · simp [hs]
      rw [hb]
      exact honce

/-- The ring that the constructor builds from different names. -/
theorem once_ofNames {cp : Int} (hno : NoCollision env cp servers) {names : List T}
    (hnodup : names.Nodup) (hnames : ∀ s ∈ names, s ∈ servers) :
    (ofNames env names cp).replicas = cp ∧
      Once env servers (ofNames env names cp) (fun s => decide (s ∈ names)) := by
  rcases once_foldl (b := fun _ => false) hno (holds_empty env servers cp) hnodup hnames
    (fun _ _ => rfl) with ⟨hrep, honce⟩
  refine ⟨hrep, ?_⟩
  simpa only [ofNames, Bool.false_or] using honce

variable [Inhabited T] {P : Type}

omit [DecidableEq T] in
/-- `get_server` computes the owner of the key's hash, and leaves the ring as it is. -/
theorem Once.route_eq_some (hno : NoCollision env r.replicas servers) (h : Once env servers r b)
    (hfunc : P → H) (skey : P) (s : T) :
    route hfunc r skey = some s ↔
      Owner env r.replicas {s | s ∈ servers ∧ b s = true} (hfunc skey) s := by
  have hset : {q | q ∈ r.srvHashring} =
      pointSet env r.replicas {s | s ∈ servers ∧ b s = true} := by
    ext q
    exact h.mem_srvHashring
  by_cases hne : r.srvHashring = []
  · rw [route_of_nil hne]
    constructor
    · intro hnone
      cases hnone
    · rintro ⟨hs, p, hp, -⟩
      have hmem := h.mem_srvHashring.mpr ⟨s, hs, hp⟩
      rw [hne] at hmem
      cases hmem
  · rcases route_of_sorted h.sorted hne hfunc skey with ⟨p, hsucc, hroute⟩
    rw [hset] at hsucc
    rcases hsucc.mem with ⟨s', hs', hp⟩
    rw [hroute, h.entry s' hs'.1 p hp, if_pos hs'.2, Option.getD_some, Option.some.injEq]
    constructor
    · rintro rfl
      exact ⟨hs', p, hp, hsucc⟩
    · rintro ⟨hs, p', hp', hsucc'⟩
      rw [hsucc.unique hsucc'] at hp
      exact hno.owner hs'.1 hs.1 hp hp'

omit [DecidableEq T] in
/-- A ring that has a server, and replicas, has a server for every key. -/
theorem Once.exists_route (h : Once env servers r b) (hrep : 1 ≤ r.replicas) {s : T}
    (hs : s ∈ servers) (hb : b s = true) (hfunc : P → H) (skey : P) :
    ∃ s', route hfunc r skey = some s' := by
  have hpoint : virtualKey env s 0 ∈ points env r.replicas s := mem_points.mpr ⟨0, by omega, rfl⟩
  have hmem := h.mem_srvHashring.mpr ⟨s, ⟨hs, hb⟩, hpoint⟩
  rcases route_of_sorted h.sorted (List.ne_nil_of_mem hmem) hfunc skey with ⟨p, -, hroute⟩
  exact ⟨_, hroute⟩

omit [DecidableEq T] in
/-- With fewer servers, a key stays with its server as long as that one is there. -/
theorem Once.route_subset {r' : HashRing T H} {b' : T → Bool}
    (hno : NoCollision env r.replicas servers) (h : Once env servers r b)
    (h' : Once env servers r' b') (hrep : r'.replicas = r.replicas)
    (hsub : ∀ s, b' s = true → b s = true) {hfunc : P → H} {skey : P} {s : T}
    (hroute : route hfunc r skey = some s) (hs : b' s = true) :
    route hfunc r' skey = some s := by
  have howner := (h.route_eq_some hno hfunc skey s).mp hroute
  apply (h'.route_eq_some (hrep.symm ▸ hno) hfunc skey s).mpr
  rw [hrep]
  apply howner.subset
  · rintro t ⟨ht, hbt⟩
    exact ⟨ht, hsub t hbt⟩
  · exact ⟨howner.1.1, hs⟩

omit [DecidableEq T] in
/-- Two rings with the same servers route alike. -/
theorem Once.route_congr {r' : HashRing T H} (hno : NoCollision env r.replicas servers)
    (h : Once env servers r b) (h' : Once env servers r' b) (hrep : r'.replicas = r.replicas)
    (hfunc : P → H) (skey : P) : route hfunc r' skey = route hfunc r skey := by
  apply Option.ext
  intro s
  rw [h.route_eq_some hno, h'.route_eq_some (hrep.symm ▸ hno), hrep]

/-- A key whose server changes when `x` is added goes to `x`. -/
theorem Once.route_added {x : T} (hno : NoCollision env r.replicas servers)
    (h : Once env servers r b) (hrep : 1 ≤ r.replicas) (hx : x ∈ servers) (hbx : b x = false)
    {hfunc : P → H} {k : P}
    (hne : route hfunc (r.addServer env x) k ≠ route hfunc r k) :
    route hfunc (r.addServer env x) k = some x := by
  have hadd := h.addServer hno hx hbx
  have hno' : NoCollision env (r.addServer env x).replicas servers := by simpa using hno
  rcases hadd.exists_route (by simpa using hrep) hx (Function.update_self x _ _) hfunc k with
    ⟨s, hs⟩
  by_cases hsx : s = x
  · exact hsx ▸ hs
  · -- a key that is routed to an old server was routed there before
    have howner := (hadd.route_eq_some hno' hfunc k s).mp hs
    have hold : b s = true := by
      simpa only [Function.update_of_ne hsx] using howner.1.2
    have hsub : ∀ t, b t = true → Function.update b x true t = true := by
      intro t ht
      by_cases htx : t = x
      · rw [htx, Function.update_self]
      · rw [Function.update_of_ne htx, ht]
    have hsame := hadd.route_subset hno' h (by simp) hsub hs hold
    exact absurd (hs.trans hsame.symm) hne

/-- A key whose server changes when `y` is removed was routed to `y`. -/
theorem Once.route_removed {y : T} (hno : NoCollision env r.replicas servers)
    (h : Once env servers r b) (hrep : 1 ≤ r.replicas) (hy : y ∈ servers) (hby : b y = true)
    {hfunc : P → H} {k : P}
    (hne : route hfunc (r.removeServer env y) k ≠ route hfunc r k) :
    route hfunc r k = some y := by
  have hremove := h.removeServer hno hy
  rcases h.exists_route hrep hy hby hfunc k with ⟨s, hs⟩
  by_cases hsy : s = y
  · exact hsy ▸ hs
  · have howner := (h.route_eq_some hno hfunc k s).mp hs
    have hsub : ∀ t, Function.update b y false t = true → b t = true := by
      intro t ht
      by_cases hty : t = y
      · rw [hty, hby]
      · rwa [Function.update_of_ne hty] at ht
    have hkept : Function.update b y false s = true := by
      rw [Function.update_of_ne hsy]
      exact howner.1.2
    have hsame := h.route_subset hno hremove (by simp) hsub hs hkept
    exact absurd (hsame.trans hs.symm) hne

/-- A ring without `y` still has a server for every key, and not `y`. -/
theorem Once.exists_route_removed {x y : T} (hno : NoCollision env r.replicas servers)
    (h : Once env servers r b) (hrep : 1 ≤ r.replicas) (hx : x ∈ servers) (hy : y ∈ servers)
    (hbx : b x = true) (hne : x ≠ y) (hfunc : P → H) (k : P) :
    ∃ s, s ≠ y ∧ b s = true ∧ route hfunc (r.removeServer env y) k = some s := by
  have hremove := h.removeServer hno hy
  have hkept : Function.update b y false x = true := by rwa [Function.update_of_ne hne]
  rcases hremove.exists_route (by simpa using hrep) hx hkept hfunc k with ⟨s, hs⟩
  have howner := (hremove.route_eq_some (by simpa using hno) hfunc k s).mp hs
  have hbs : Function.update b y false s = true := howner.1.2
  by_cases hsy : s = y
  · rw [hsy, Function.update_self] at hbs
    cases hbs
  · rw [Function.update_of_ne hsy] at hbs
    exact ⟨s, hsy, hbs, hs⟩

end Once

/-- With every server added once, every key is routed to one of the servers, the order of the
    insertions makes no difference, a new server takes keys to itself only, a removed server
    gives up its own keys only, and to those that remain, and adding and removing a server
    restores what was. -/
theorem consistent_hashing [DecidableEq T] [Inhabited T] (env : RingEnv T H) {cp : Int}
    (hcp : 1 ≤ cp) {names : List T} (hnodup : names.Nodup) {servers : Set T}
    (hnames : ∀ s ∈ names, s ∈ servers) (hno : NoCollision env cp servers) :
    (names ≠ [] → ∀ (P : Type) (hfunc : P → H) (k : P),
      ∃ s ∈ names, route hfunc (ofNames env names cp) k = some s) ∧
    (∀ names', names'.Perm names → ∀ (P : Type) (hfunc : P → H) (k : P),
      route hfunc (ofNames env names' cp) k = route hfunc (ofNames env names cp) k) ∧
    (∀ x ∈ servers, x ∉ names → ∀ (P : Type) (hfunc : P → H) (k : P),
      let r := ofNames env names cp
      (route hfunc (r.addServer env x) k ≠ route hfunc r k →
        route hfunc (r.addServer env x) k = some x) ∧
      route hfunc ((r.addServer env x).removeServer env x) k = route hfunc r k) ∧
    ∀ y ∈ names, ∀ (P : Type) (hfunc : P → H) (k : P),
      let r := ofNames env names cp
      (route hfunc (r.removeServer env y) k ≠ route hfunc r k → route hfunc r k = some y) ∧
      ((∃ x ∈ names, x ≠ y) →
        ∃ s ∈ names, s ≠ y ∧ route hfunc (r.removeServer env y) k = some s) := by
  rcases once_ofNames hno hnodup hnames with ⟨hrep, honce⟩
  have hno' : NoCollision env (ofNames env names cp).replicas servers := hrep.symm ▸ hno
  have hrep' : 1 ≤ (ofNames env names cp).replicas := by rwa [hrep]
  refine ⟨?_, ?_, ?_, ?_⟩
  · intro hne P hfunc k
    rcases List.exists_mem_of_ne_nil names hne with ⟨x, hx⟩
    rcases honce.exists_route hrep' (hnames x hx) (decide_eq_true hx) hfunc k with ⟨s, hs⟩
    have howner := (honce.route_eq_some hno' hfunc k s).mp hs
    exact ⟨s, of_decide_eq_true howner.1.2, hs⟩
  · intro names' hperm P hfunc k
    rcases once_ofNames hno (hperm.nodup_iff.mpr hnodup)
      (fun s hs => hnames s (hperm.mem_iff.mp hs)) with ⟨hrep', honce'⟩
    simp only [hperm.mem_iff] at honce'
    exact honce.route_congr hno' honce' (hrep'.trans hrep.symm) hfunc k
  · intro x hx hnew P hfunc k
    have hbx : decide (x ∈ names) = false := decide_eq_false hnew
    constructor
    · exact fun hne => honce.route_added hno' hrep' hx hbx hne
    · have hadd := honce.addServer hno' hx hbx
      have hremove := hadd.removeServer (by simpa using hno') hx
      have hback : Function.update (Function.update (fun s => decide (s ∈ names)) x true) x false =
          fun s => decide (s ∈ names) := by
        rw [Function.update_idem, ← hbx]
        exact Function.update_eq_self x _
      rw [hback] at hremove
      exact honce.route_congr hno' hremove (by simp) hfunc k
  · intro y hy P hfunc k
    constructor
    · exact fun hne => honce.route_removed hno' hrep' (hnames y hy) (decide_eq_true hy) hne
    · rintro ⟨x, hx, hxy⟩
      rcases honce.exists_route_removed hno' hrep' (hnames x hx) (hnames y hy)
        (decide_eq_true hx) hxy hfunc k with ⟨s, hsy, hs, hroute⟩
      exact ⟨s, of_decide_eq_true hs, hsy, hroute⟩

/-- Rings of the servers 1 and 2, inserted in both orders, with server 3 to come and server 2 to
    go. -/
theorem consistent_hashing_numberEnv :
    let r := ofNames numberEnv [1, 2] 1
    ∀ k : Nat, (∃ s ∈ [(1 : Int), 2], route id r k = some s) ∧
      route id (ofNames numberEnv [2, 1] 1) k = route id r k ∧
      (route id (r.addServer numberEnv 3) k = route id r k ∨
        route id (r.addServer numberEnv 3) k = some 3) ∧
      route id ((r.addServer numberEnv 3).removeServer numberEnv 3) k = route id r k ∧
      (route id r k = some 2 ∨ route id (r.removeServer numberEnv 2) k = route id r k) ∧
      route id (r.removeServer numberEnv 2) k = some 1 := by
  intro r k
  have hnodup : [(1 : Int), 2].Nodup := by decide
  obtain ⟨hall, horder, hcome, hgo⟩ := consistent_hashing numberEnv (le_refl 1) hnodup (by simp)
    noCollision_numberEnv
  obtain ⟨hadded, hback⟩ := hcome 3 (.inr (.inr rfl)) (by decide) Nat id k
  obtain ⟨hremoved, hrest⟩ := hgo 2 (by decide) Nat id k
  refine ⟨hall (by decide) Nat id k, horder [2, 1] (.swap 1 2 []) Nat id k, ?_, hback, ?_, ?_⟩
  · exact or_iff_not_imp_left.mpr hadded
  · exact or_iff_not_imp_right.mpr hremoved
  · obtain ⟨s, hs, hs2, hroute⟩ := hrest ⟨1, by decide, by decide⟩
    simp only [List.mem_cons, List.not_mem_nil, or_false] at hs
    rw [hroute, hs.resolve_right hs2]

end HashRing

end Paracel
