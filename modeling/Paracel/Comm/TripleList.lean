import Paracel.Doubles
import Paracel.Misc.FirstError
import Paracel.Wire

/-!
# Lists of triples on the wire

`Comm::isend` and `Comm::recv` on a list of triples (`include/utils/comm.hpp`).
The size of the list goes first, then one text: the two ids and the printed
weight of a triple joined with `seperator_inner`, and the triples joined with
`seperator`. A list of one triple has a `seperator` behind it. Nothing is escaped,
and both separators begin and end with the same byte, so a separator can be found
inside an id and also across the ends of one.
-/

namespace Paracel.TripleList

open SplitWord

/-! ### Lists of texts -/

section Lists

variable {T : Type} (localPack : T → Str) (unpack : Str → Except Fault T)

/-- The texts of a list with `seperator` behind all but the last. -/
def packRest : T → List T → Str
  | tpl, [] => localPack tpl
  | tpl, next :: rest => localPack tpl ++ seperator ++ packRest next rest

/-- `*str_pt`, the text of a list. -/
def packList : List T → Str
  | [] => []
  | [tpl] => localPack tpl ++ seperator
  | tpl :: rest => packRest localPack tpl rest

/-- The loop over the pieces, from `triple_lst[i]` on. -/
def unpackFrom : Nat → List Str → List T → Except Fault (List T)
  | _, [], lst => .ok lst
  | i, s :: pieces, lst =>
      if i < lst.length then do
        let tpl ← unpack s
        unpackFrom (i + 1) pieces (lst.set i tpl)
      else .error .outOfRange

/-- `recv` of a list, with the size and the text that were sent. -/
def recvList (default : T) (lst : List T) (msg : Nat × Str) : Except Fault (List T) :=
  let lst := if msg.1 ≠ 0 then lst.takeD msg.1 default else lst
  unpackFrom unpack 0 (strSplitByWord msg.2 seperator) lst

end Lists

/-! ### Triples -/

/-- `lambda_local_pack`. -/
def localPack (tpl : Triple ℚ) : Str :=
  tpl.1 ++ seperatorInner ++ tpl.2.1 ++ seperatorInner ++ doubleStr tpl.2.2

/-- The ids and the weight of one piece. -/
def unpackTriple (s : Str) : Except Fault (Triple ℚ) := do
  let tpl := strSplitByWord s seperatorInner
  let a ← elem tpl 0
  let b ← elem tpl 1
  let text ← elem tpl 2
  let w ← orThrow (stod text)
  return (a, b, w)

/-- `Comm::isend` of a list of triples: its size and its text. -/
def isend (tripleLst : List (Triple ℚ)) : Nat × Str :=
  (tripleLst.length, packList localPack tripleLst)

/-- `Comm::recv` of a list of triples. -/
def recv (tripleLst : List (Triple ℚ)) (msg : Nat × Str) : Except Fault (List (Triple ℚ)) :=
  recvList unpackTriple ([], [], 0) tripleLst msg

/-- No separator can be found at the ids: `seperator` neither in the first one with the byte
    behind it, nor in the second one with the bytes at its ends; `seperator_inner` in neither
    of them, nor from its end on into the `seperator_inner` behind it. -/
def Separable (tpl : Triple ℚ) : Prop :=
  (¬seperator <:+: tpl.1 ++ lit "_" ∧ ¬seperator <:+: lit "_" ++ tpl.2.1 ++ lit "_") ∧
    Clean seperatorInner tpl.1 ∧ Clean seperatorInner tpl.2.1

/-! ### The loop of `recv` -/

section Loop

variable {T : Type} {unpack : Str → Except Fault T}

/-- One turn of the loop, with a place left. -/
theorem unpackFrom_cons (s : Str) (pieces : List Str) (pre : List T) (d : T) (suf : List T) :
    unpackFrom unpack pre.length (s :: pieces) (pre ++ d :: suf) =
      (unpack s).bind fun tpl => unpackFrom unpack (pre ++ [tpl]).length pieces
        ((pre ++ [tpl]) ++ suf) := by
  have hset : ∀ tpl, (pre ++ d :: suf).set pre.length tpl = (pre ++ [tpl]) ++ suf := by
    intro tpl
    simp
  have hlen : ∀ tpl : T, (pre ++ [tpl]).length = pre.length + 1 := fun tpl => by simp
  rw [unpackFrom, if_pos (by simp)]
  simp only [hset, hlen]
  rfl

/-- The pieces are put over the places from the first one on. -/
theorem unpackFrom_eq_ok_iff {pieces : List Str} {pre suf out : List T} :
    unpackFrom unpack pre.length pieces (pre ++ suf) = .ok out ↔
      pieces.length ≤ suf.length ∧
        ∃ tpls, pieces.mapM unpack = .ok tpls ∧ out = pre ++ tpls ++ suf.drop pieces.length := by
  induction pieces generalizing pre suf with
  | nil =>
      show Except.ok (pre ++ suf) = .ok out ↔ 0 ≤ suf.length ∧ ∃ tpls, Except.ok [] = .ok tpls ∧ _
      simp [eq_comm]
  | cons s pieces ih =>
      cases suf with
      | nil => simp [unpackFrom]
      | cons d suf =>
          rw [unpackFrom_cons, List.length_cons, List.length_cons, Nat.add_le_add_iff_right]
          constructor
          · intro h
            cases hs : unpack s with
            | error e =>
                rw [hs] at h
                cases h
            | ok tpl =>
                rw [hs] at h
                obtain ⟨hle, tpls, htpls, rfl⟩ := ih.mp h
                refine ⟨hle, tpl :: tpls, ?_, by simp⟩
                exact FirstError.mapM_cons_eq_ok_iff.mpr ⟨tpl, tpls, hs, htpls, rfl⟩
          · rintro ⟨hle, tpls', htpls', rfl⟩
            obtain ⟨tpl, tpls, hs, htpls, rfl⟩ := FirstError.mapM_cons_eq_ok_iff.mp htpls'
            rw [hs]
            exact ih.mpr ⟨hle, tpls, htpls, by simp⟩

/-- The loop of `recv` on a list that was empty. -/
theorem recvList_nil (default : T) (size : Nat) (text : Str) :
    recvList unpack default [] (size, text) =
      unpackFrom unpack 0 (strSplitByWord text seperator) (List.replicate size default) := by
  rw [recvList]
  split
  · rw [List.takeD_nil]
  · rename_i hsize
    have hzero : size = 0 := not_not.mp hsize
    rw [hzero, List.replicate_zero]

/-- An empty list takes as many members as were announced, one from each piece. -/
theorem recvList_of_mapM {text : Str} {tpls : List T} (default : T)
    (h : (strSplitByWord text seperator).mapM unpack = .ok tpls) :
    recvList unpack default [] (tpls.length, text) = .ok tpls := by
  have hloop := @unpackFrom_eq_ok_iff T unpack (strSplitByWord text seperator) []
    (List.replicate tpls.length default) tpls
  have hlen := FirstError.length_of_mapM h
  rw [recvList_nil]
  refine hloop.mpr ⟨?_, tpls, h, ?_⟩
  · rw [List.length_replicate, hlen]
  · rw [List.drop_replicate, hlen, Nat.sub_self]
    simp

/-- What `recv` makes of an empty list, if no member of the list sent is the default. -/
theorem recvList_eq_ok_iff {default : T} {lst : List T} (hne : default ∉ lst) (text : Str) :
    recvList unpack default [] (lst.length, text) = .ok lst ↔
      (strSplitByWord text seperator).mapM unpack = .ok lst := by
  -- the loop starts with nothing in front of it
  have hloop := @unpackFrom_eq_ok_iff T unpack (strSplitByWord text seperator) []
    (List.replicate lst.length default) lst
  refine ⟨?_, recvList_of_mapM default⟩
  rw [recvList_nil]
  intro h
  obtain ⟨-, tpls, htpls, hlst⟩ := hloop.mp h
  rw [List.drop_replicate] at hlst
  cases hrest : lst.length - (strSplitByWord text seperator).length with
  | zero =>
      rw [hrest, List.nil_append, List.replicate_zero, List.append_nil] at hlst
      rw [htpls, hlst]
  | succ k =>
      -- a place that no piece was put over holds the default
      rw [hrest] at hlst
      refine absurd ?_ hne
      rw [hlst, List.replicate_succ]
      simp

/-- Packed members in which no separator starts are found again one by one. -/
theorem strSplitByWord_packRest {localPack : T → Str} {tpl : T} {rest : List T}
    (hclean : ∀ t ∈ tpl :: rest, Clean seperator (localPack t))
    (hne : ∀ t ∈ tpl :: rest, localPack t ≠ []) :
    strSplitByWord (packRest localPack tpl rest) seperator = (tpl :: rest).map localPack := by
  induction rest generalizing tpl with
  | nil =>
      have hinf : ¬seperator <:+: localPack tpl := fun h =>
        hclean tpl List.mem_cons_self (h.trans (List.prefix_append _ _).isInfix)
      simp [packRest, strSplitByWord, splitWord_of_absent hinf, hne tpl List.mem_cons_self]
  | cons next rest ih =>
      rw [List.forall_mem_cons] at hclean hne
      rw [packRest, strSplitByWord_append seperator_ne_nil hclean.1, ih hclean.2 hne.2,
        List.map_cons (l := next :: rest)]

theorem strSplitByWord_packList {localPack : T → Str} {lst : List T}
    (hclean : ∀ t ∈ lst, Clean seperator (localPack t)) (hne : ∀ t ∈ lst, localPack t ≠ []) :
    strSplitByWord (packList localPack lst) seperator = lst.map localPack := by
  rcases lst with _ | ⟨tpl, _ | ⟨next, rest⟩⟩
  · rfl
  · have happend := strSplitByWord_append seperator_ne_nil (hclean tpl List.mem_cons_self) []
    rw [List.append_nil] at happend
    exact happend
  · exact strSplitByWord_packRest hclean hne

end Loop

/-! ### One triple -/

theorem unpackTriple_eq_ok_iff {s : Str} {tpl : Triple ℚ} :
    unpackTriple s = .ok tpl ↔
      ∃ text rest, strSplitByWord s seperatorInner = tpl.1 :: tpl.2.1 :: text :: rest ∧
        stod text = some tpl.2.2 := by
  obtain ⟨a, b, w⟩ := tpl
  unfold unpackTriple
  rcases strSplitByWord s seperatorInner with _ | ⟨a', _ | ⟨b', _ | ⟨text, rest⟩⟩⟩
  · simp [elem, bind, Except.bind]
  · simp [elem, bind, Except.bind]
  · simp [elem, bind, Except.bind]
  · show ((orThrow (stod text)).bind fun w' => .ok (a', b', w')) = .ok (a, b, w) ↔ _
    rw [orThrow_bind_eq_ok_iff]
    constructor
    · rintro ⟨w', hw, heq⟩
      cases heq
      exact ⟨text, rest, rfl, hw⟩
    · rintro ⟨text', rest', heq, hw⟩
      cases heq
      exact ⟨w, hw, rfl⟩

section One

variable {tpl : Triple ℚ}

/-- The bytes of a printed weight and of the separators. -/
theorem notMem_of_mem_doubleStr {w : ℚ} {c : UInt8} (h : c ∈ doubleStr w) :
    c ∉ seperator ∧ c ∉ seperatorInner := by
  have hsep : ∀ c ∈ seperator ++ seperatorInner, 58 ≤ c.toNat :=
    List.forall_iff_forall_mem.mp (by decide)
  have hlt := toNat_of_mem_doubleStr h
  constructor
  · intro hmem
    have hge := hsep c (List.mem_append_left _ hmem)
    omega
  · intro hmem
    have hge := hsep c (List.mem_append_right _ hmem)
    omega

theorem not_seperator_infix_doubleStr (w : ℚ) : ¬seperator <:+: doubleStr w :=
  not_infix_of_forall_notMem seperator_ne_nil fun _ hc => (notMem_of_mem_doubleStr hc).1

theorem not_seperatorInner_infix_doubleStr (w : ℚ) : ¬seperatorInner <:+: doubleStr w :=
  not_infix_of_forall_notMem seperatorInner_ne_nil fun _ hc => (notMem_of_mem_doubleStr hc).2

/-- Where `seperator` can be found from the beginning of a packed triple on: `p` and `s` and the
    bytes of a number are not in it. -/
theorem seperator_infix_localPack_append_iff (tpl : Triple ℚ) (r : Str) :
    seperator <:+: localPack tpl ++ r ↔
      (seperator <:+: tpl.1 ++ lit "_" ∨ seperator <:+: lit "_" ++ tpl.2.1 ++ lit "_") ∨
        seperator <:+: r := by
  have hps : ∀ c ∈ lit "ps", c ∉ seperator := List.forall_iff_forall_mem.mp (by decide)
  have hne : lit "ps" ≠ [] := List.cons_ne_nil _ _
  have hunderscore : ¬seperator <:+: lit "_" := by decide
  have hinner : seperatorInner = lit "_" ++ (lit "ps" ++ lit "_") := rfl
  have hshape : localPack tpl ++ r =
      (tpl.1 ++ lit "_") ++ (lit "ps" ++ ((lit "_" ++ tpl.2.1 ++ lit "_") ++
        (lit "ps" ++ (lit "_" ++ (doubleStr tpl.2.2 ++ r))))) := by
    simp only [localPack, hinner, List.append_assoc]
  rw [hshape, infix_append_append_iff hne hps, infix_append_append_iff hne hps,
    infix_append_append_iff (doubleStr_ne_nil _) fun _ hc => (notMem_of_mem_doubleStr hc).1,
    or_iff_right hunderscore, or_assoc]

theorem seperator_infix_localPack_iff :
    seperator <:+: localPack tpl ↔
      seperator <:+: tpl.1 ++ lit "_" ∨ seperator <:+: lit "_" ++ tpl.2.1 ++ lit "_" := by
  have hpack := seperator_infix_localPack_append_iff tpl []
  rwa [List.append_nil, or_iff_left fun h => seperator_ne_nil (List.infix_nil.mp h)] at hpack

theorem clean_localPack_iff : Clean seperator (localPack tpl) ↔ ¬seperator <:+: localPack tpl := by
  have hdrop : ¬seperator <:+: seperator.dropLast := by decide
  rw [Clean, seperator_infix_localPack_append_iff, or_iff_left hdrop, seperator_infix_localPack_iff]

theorem localPack_eq (tpl : Triple ℚ) :
    localPack tpl =
      tpl.1 ++ seperatorInner ++ (tpl.2.1 ++ seperatorInner ++ doubleStr tpl.2.2) := by
  simp only [localPack, List.append_assoc]

theorem splitWord_of_unpackTriple {s : Str} (h : unpackTriple s = .ok tpl) :
    ∃ text rest, splitWord seperatorInner s = tpl.1 :: tpl.2.1 :: text :: rest := by
  obtain ⟨text, rest, hpieces, -⟩ := unpackTriple_eq_ok_iff.mp h
  rcases splitWord_eq_or_append_nil s seperatorInner with hsplit | hsplit
  · exact ⟨text, rest, hsplit.trans hpieces⟩
  · exact ⟨text, rest ++ [[]], by rw [hsplit, hpieces]; rfl⟩

/-- A piece that is read as a triple begins with its ids. -/
theorem eq_append_of_unpackTriple {s : Str} (h : unpackTriple s = .ok tpl) :
    ∃ tail, s = tpl.1 ++ seperatorInner ++ (tpl.2.1 ++ seperatorInner ++ tail) := by
  obtain ⟨text, rest, hsplit⟩ := splitWord_of_unpackTriple h
  refine ⟨List.intercalate seperatorInner (text :: rest), ?_⟩
  rw [← intercalate_splitWord seperatorInner_ne_nil s, hsplit,
    List.intercalate_cons_cons, List.intercalate_cons_cons]

/-- A packed triple is taken apart as it was put together, which is all that `isend` and `recv`
    of one triple do. -/
theorem unpackTriple_localPack_iff {m : ℤ} (hw : tpl.2.2 = m / 10 ^ 6) :
    unpackTriple (localPack tpl) = .ok tpl ↔
      Clean seperatorInner tpl.1 ∧ Clean seperatorInner tpl.2.1 := by
  have hne := seperatorInner_ne_nil
  have hlast : splitWord seperatorInner (doubleStr tpl.2.2) = [doubleStr tpl.2.2] :=
    splitWord_of_absent (not_seperatorInner_infix_doubleStr _)
  constructor
  · intro h
    obtain ⟨text, rest, hsplit⟩ := splitWord_of_unpackTriple h
    rw [localPack_eq, splitWord_eq_cons_iff hne, splitWord_eq_cons_iff hne] at hsplit
    exact ⟨hsplit.1, hsplit.2.1⟩
  · rintro ⟨hfirst, hsecond⟩
    refine unpackTriple_eq_ok_iff.mpr ⟨doubleStr tpl.2.2, [], ?_, stod_doubleStr hw⟩
    rw [localPack_eq, strSplitByWord_append hne hfirst, strSplitByWord_append hne hsecond,
      strSplitByWord, hlast]
    simp [doubleStr_ne_nil]

theorem separable_iff {m : ℤ} (hw : tpl.2.2 = m / 10 ^ 6) :
    Separable tpl ↔ ¬seperator <:+: localPack tpl ∧ unpackTriple (localPack tpl) = .ok tpl := by
  rw [Separable, unpackTriple_localPack_iff hw, seperator_infix_localPack_iff, not_or]

/-- If the first piece is read as the first triple, there is no separator inside the triple. -/
theorem not_infix_of_mapM {r : Str} {rest : List (Triple ℚ)}
    (h : (strSplitByWord (localPack tpl ++ r) seperator).mapM unpackTriple = .ok (tpl :: rest)) :
    ¬seperator <:+: localPack tpl := by
  intro hinf
  obtain ⟨q', r', heq, hclean⟩ := exists_clean_of_present seperator_ne_nil hinf
  have hcut : localPack tpl ++ r = q' ++ seperator ++ (r' ++ r) := by
    rw [heq, List.append_assoc]
  rw [hcut, strSplitByWord_append seperator_ne_nil hclean] at h
  obtain ⟨tpl', rest', hq, -, heq'⟩ := FirstError.mapM_cons_eq_ok_iff.mp h
  cases heq'
  -- both ids are in the piece, so the separator behind it lies in the weight
  obtain ⟨tail, htail⟩ := eq_append_of_unpackTriple hq
  have hweight : doubleStr tpl.2.2 = tail ++ seperator ++ r' := by
    rw [localPack_eq, htail] at heq
    simpa using heq
  refine not_seperator_infix_doubleStr tpl.2.2 ?_
  rw [hweight]
  exact List.infix_append tail seperator r'

end One

/-! ### The list -/

section Whole

variable {tpl : Triple ℚ} {m : ℤ}

/-- The last triple, with nothing behind it. -/
theorem mapM_last_iff (hw : tpl.2.2 = m / 10 ^ 6) :
    (strSplitByWord (localPack tpl) seperator).mapM unpackTriple = .ok [tpl] ↔
      Separable tpl := by
  have hsplit : ¬seperator <:+: localPack tpl →
      strSplitByWord (localPack tpl) seperator = [localPack tpl] := by
    intro hinf
    have hne : localPack tpl ≠ [] := by simp [localPack, doubleStr_ne_nil]
    simp [strSplitByWord, splitWord_of_absent hinf, hne]
  rw [separable_iff hw]
  constructor
  · intro h
    have hinf := not_infix_of_mapM (r := []) (by rwa [List.append_nil])
    rw [hsplit hinf] at h
    obtain ⟨tpl', rest', hpack, -, heq⟩ := FirstError.mapM_cons_eq_ok_iff.mp h
    cases heq
    exact ⟨hinf, hpack⟩
  · rintro ⟨hinf, hpack⟩
    rw [hsplit hinf]
    exact FirstError.mapM_cons_eq_ok_iff.mpr ⟨tpl, [], hpack, rfl, rfl⟩

/-- A triple with a separator behind it. -/
theorem mapM_append_iff (hw : tpl.2.2 = m / 10 ^ 6) (r : Str) (rest : List (Triple ℚ)) :
    (strSplitByWord (localPack tpl ++ seperator ++ r) seperator).mapM unpackTriple =
        .ok (tpl :: rest) ↔
      Separable tpl ∧ (strSplitByWord r seperator).mapM unpackTriple = .ok rest := by
  have hsplit : ¬seperator <:+: localPack tpl →
      strSplitByWord (localPack tpl ++ seperator ++ r) seperator =
        localPack tpl :: strSplitByWord r seperator := fun hinf =>
    strSplitByWord_append seperator_ne_nil (clean_localPack_iff.mpr hinf) r
  rw [separable_iff hw]
  constructor
  · intro h
    have hinf := not_infix_of_mapM (r := seperator ++ r) (by rwa [← List.append_assoc])
    rw [hsplit hinf] at h
    obtain ⟨tpl', rest', hpack, hrest, heq⟩ := FirstError.mapM_cons_eq_ok_iff.mp h
    cases heq
    exact ⟨⟨hinf, hpack⟩, hrest⟩
  · rintro ⟨⟨hinf, hpack⟩, hrest⟩
    rw [hsplit hinf]
    exact FirstError.mapM_cons_eq_ok_iff.mpr ⟨tpl, rest, hpack, hrest, rfl⟩

theorem mapM_packRest_iff {rest : List (Triple ℚ)}
    (hw : ∀ t ∈ tpl :: rest, ∃ m : ℤ, t.2.2 = m / 10 ^ 6) :
    (strSplitByWord (packRest localPack tpl rest) seperator).mapM unpackTriple =
        .ok (tpl :: rest) ↔
      ∀ t ∈ tpl :: rest, Separable t := by
  induction rest generalizing tpl with
  | nil =>
      obtain ⟨m, hm⟩ := hw tpl List.mem_cons_self
      rw [packRest, mapM_last_iff hm, List.forall_mem_singleton]
  | cons next rest ih =>
      obtain ⟨m, hm⟩ := hw tpl List.mem_cons_self
      rw [packRest, mapM_append_iff hm, ih fun t ht => hw t (List.mem_cons_of_mem _ ht),
        List.forall_mem_cons (a := tpl)]

theorem mapM_packList_iff {tripleLst : List (Triple ℚ)}
    (hw : ∀ tpl ∈ tripleLst, ∃ m : ℤ, tpl.2.2 = m / 10 ^ 6) :
    (strSplitByWord (packList localPack tripleLst) seperator).mapM unpackTriple = .ok tripleLst ↔
      ∀ tpl ∈ tripleLst, Separable tpl := by
  have hempty : (strSplitByWord [] seperator).mapM unpackTriple = .ok [] := rfl
  rcases tripleLst with _ | ⟨tpl, _ | ⟨next, rest⟩⟩
  · simp [packList, hempty]
  · obtain ⟨m, hm⟩ := hw tpl List.mem_cons_self
    have hiff := mapM_append_iff hm [] []
    rw [List.append_nil, and_iff_left hempty] at hiff
    rw [packList, hiff, List.forall_mem_singleton]
  · exact mapM_packRest_iff hw

end Whole

/-- What `recv` makes of what `isend` sends is the same list exactly when no separator can be
    found at the ids of any triple. -/
theorem recv_isend_iff {tripleLst : List (Triple ℚ)} (hids : ∀ tpl ∈ tripleLst, tpl.1 ≠ [])
    (hw : ∀ tpl ∈ tripleLst, ∃ m : ℤ, tpl.2.2 = m / 10 ^ 6) :
    recv [] (isend tripleLst) = .ok tripleLst ↔ ∀ tpl ∈ tripleLst, Separable tpl := by
  have hdefault : ([], [], 0) ∉ tripleLst := fun h => hids _ h rfl
  exact (recvList_eq_ok_iff hdefault _).trans (mapM_packList_iff hw)

theorem recv_isend_iff_twoTriples :
    recv [] (isend [(lit "abc", lit "def", 4.15), (lit "cba", lit "fed", 5.16)]) =
        .ok [(lit "abc", lit "def", 4.15), (lit "cba", lit "fed", 5.16)] ↔
      ∀ tpl ∈ [(lit "abc", lit "def", (4.15 : ℚ)), (lit "cba", lit "fed", 5.16)],
        Separable tpl := by
  refine recv_isend_iff ?_ ?_
  · decide
  · rw [List.forall_mem_cons, List.forall_mem_singleton]
    exact ⟨⟨4150000, by norm_num⟩, ⟨5160000, by norm_num⟩⟩

/-- The first id ends in the middle of a separator: `a_ps` and `c` arrive as `a` and `ps_c`. -/
theorem not_recv_isend_cutId :
    ¬∀ tripleLst : List (Triple ℚ), (∀ tpl ∈ tripleLst, tpl.1 ≠ [] ∧ tpl.2.1 ≠ []) →
      (∀ tpl ∈ tripleLst, ∃ m : ℤ, tpl.2.2 = m / 10 ^ 6) →
        recv [] (isend tripleLst) = .ok tripleLst := by
  intro hall
  have hsent := hall [(lit "a_ps", lit "c", 1)] (by decide) (by
    rw [List.forall_mem_singleton]
    exact ⟨1000000, by norm_num⟩)
  have hreceived : recv [] (isend [(lit "a_ps", lit "c", 1)]) = .ok [(lit "a", lit "ps_c", 1)] := by
    decide +kernel
  rw [hsent] at hreceived
  exact absurd hreceived (by decide)

end Paracel.TripleList
