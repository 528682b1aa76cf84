import TORdex.Algorithms.RadixShape

/-!
# The longest prefix in a radix tree

The search goes through all children, also where nothing is left of the text.  So it can stop at an empty edge
before it comes to the child on its way, and it can run over the end of the text into a longer key.
-/

namespace TORdex

open ByteOffsets Utf8

namespace RadixNode

/-- An empty edge stands before the child on the way of a text. -/
def EmptyFirst (children : List RadixNode) (s : List Char) : Prop :=
  ∃ xs c ys, children = xs ++ c :: ys ∧ c.pfx = [] ∧ ∀ x ∈ xs, ¬ Leads s x

/-- The search for a text comes to an empty edge at an earlier text before it goes on. -/
inductive Blocked : RadixNode → List Char → List Char → Prop
  | here {pfx s : List Char} {children : List RadixNode} {isEnd : Bool} {value : Option String}
    (rest : s ≠ []) (empty : EmptyFirst children s) : Blocked ⟨pfx, children, isEnd, value⟩ (pfx ++ s) pfx
  | deeper {pfx s q : List Char} {children : List RadixNode} {isEnd : Bool} {value : Option String}
    {c : RadixNode} (child : c ∈ children) (leads : Leads s c) (blocked : Blocked c s q) :
    Blocked ⟨pfx, children, isEnd, value⟩ (pfx ++ s) (pfx ++ q)

/-- The text ends at a node whose first child with the end of a key is not an empty edge. -/
inductive Overrun : RadixNode → List Char → Prop
  | here {pfx : List Char} {children : List RadixNode} {isEnd : Bool} {value : Option String} {c : RadixNode}
    (first : children.find? RadixNode.isEnd = some c) (longer : c.pfx ≠ []) :
      Overrun ⟨pfx, children, isEnd, value⟩ pfx
  | deeper {pfx s : List Char} {children : List RadixNode} {isEnd : Bool} {value : Option String}
    {c : RadixNode} (child : c ∈ children) (leads : Leads s c) (overrun : Overrun c s) :
    Overrun ⟨pfx, children, isEnd, value⟩ (pfx ++ s)

/-! ## The result of the search -/

section Result

variable {pfx s q r : List Char} {children : List RadixNode} {isEnd : Bool} {value : Option String}
    {t : RadixNode}

theorem longestPrefixChild_eq {g : RadixNode → Option (List Char)}
    (h : ∀ c ∈ children, c.longestPrefix s = some (g c)) :
    longestPrefixChild children s = some (children.findSome? g) := by
  induction children with
  | nil => rfl
  | cons c children ih =>
    obtain ⟨first, others⟩ := List.forall_mem_cons.1 h
    rw [longestPrefixChild, first, List.findSome?_cons]
    cases g c with
    | none => exact ih others
    | some result => rfl

theorem longestPrefix_nil :
    longestPrefix ⟨pfx, children, isEnd, value⟩ [] = some (if isEnd then some pfx else none) := by
  rw [longestPrefix, if_pos rfl]

theorem longestPrefix_off (some : s ≠ []) (off : ¬ pfx <+: s) :
    longestPrefix ⟨pfx, children, isEnd, value⟩ s = Option.some none := by
  rw [longestPrefix, if_neg some, if_neg off]

theorem longestPrefix_append {g : RadixNode → Option (List Char)} (text : pfx ++ s ≠ [])
    (h : ∀ c ∈ children, c.longestPrefix s = some (g c)) :
      longestPrefix ⟨pfx, children, isEnd, value⟩ (pfx ++ s) =
      some (((children.findSome? g).map (pfx ++ ·)).or (if isEnd then some pfx else none)) := by
  rw [longestPrefix, if_neg text, if_pos (List.prefix_append pfx s), sliceFrom_size]
  simp only [Option.bind_eq_bind, Option.bind_some, longestPrefixChild_eq h]
  cases children.findSome? g <;> rfl

/-- The search never panics. -/
theorem longestPrefix_isSome (t : RadixNode) (s : List Char) : ∃ result, t.longestPrefix s = some result := by
  induction t using induct generalizing s with
  | node pfx children isEnd value ih =>
    by_cases empty : s = []
    · exact ⟨_, empty ▸ longestPrefix_nil⟩
    · by_cases front : pfx <+: s
      · obtain ⟨r, rfl⟩ := front
        have results : ∀ c ∈ children, c.longestPrefix r = some ((c.longestPrefix r).getD none) := by
          intro c hc
          obtain ⟨result, h⟩ := ih c hc r
          rw [h, Option.getD_some]
        exact ⟨_, longestPrefix_append empty results⟩
      · exact ⟨_, longestPrefix_off empty front⟩

end Result

/-! ## What is found -/

/-- The longest key at the beginning of a text, as far as the marks of the nodes tell. -/
def LongestAt (t : RadixNode) (s : List Char) : Option (List Char) → Prop
  | none => ∀ x, x <+: s → t.walk x ≠ some (.node true)
  | some y => t.walk y = some (.node true) ∧ y <+: s ∧ ∀ x, x <+: s → t.walk x = some (.node true) →
    x.length ≤ y.length

/-- The result of the search: the first text at which it is blocked, or a key beyond the text, or the longest
key. -/
def Outcome (t : RadixNode) (s : List Char) (result : Option (List Char)) : Prop :=
  (∃ q, result = some q ∧ Blocked t s q ∧ ∀ q', Blocked t s q' → q.length ≤ q'.length) ∨
  ((∀ q, ¬ Blocked t s q) ∧
    ((∃ y, result = some y ∧ Overrun t s ∧ s.length < y.length) ∨ (¬ Overrun t s ∧ LongestAt t s result)))

section Children

variable {pfx s q r : List Char} {children : List RadixNode} {isEnd : Bool} {value : Option String}
    {t c : RadixNode}

theorem leads_nil : ¬ Leads [] c := by
  rintro ⟨some, same⟩
  exact some (firstByte_eq_none_iff.1 same)

/-- A text leads to one child only. -/
theorem exists_way (apart : Apart children) (hc : c ∈ children) (leads : Leads s c) :
    ∃ xs ys, children = xs ++ c :: ys ∧
    (∀ x ∈ xs, ¬ Leads s x) ∧ ∀ y ∈ ys, ¬ Leads s y := by
  obtain ⟨xs, ys, rfl⟩ := List.append_of_mem hc
  rw [Apart, firstBytes, List.map_append, List.map_cons, List.pairwise_append, List.pairwise_cons] at apart
  obtain ⟨-, ⟨after, -⟩, before⟩ := apart
  refine ⟨xs, ys, rfl, fun x hx other => ?_, fun y hy other => ?_⟩
  · have none := before _ (List.mem_map_of_mem hx) _ List.mem_cons_self (other.2.trans leads.2.symm)
    exact other.1 (firstByte_eq_none_iff.1 none)
  · have none := after _ (List.mem_map_of_mem hy) (leads.2.trans other.2.symm)
    exact leads.1 (firstByte_eq_none_iff.1 none)

theorem walkChild_of_leads (apart : Apart children) (hc : c ∈ children) (leads : Leads s c) :
    walkChild children s = c.walk s := by
  obtain ⟨xs, ys, rfl, before, -⟩ := exists_way apart hc leads
  clear apart hc
  induction xs with
  | nil => rw [List.nil_append, walkChild, if_pos leads]
  | cons x xs ih =>
    obtain ⟨first, others⟩ := List.forall_mem_cons.1 before
    rw [List.cons_append, walkChild, if_neg first, ih others]

theorem eq_of_leads (apart : Apart children) (hc : c ∈ children) (leads : Leads s c) {d : RadixNode}
    (hd : d ∈ children) (leads' : Leads s d) : d = c := by
  obtain ⟨xs, ys, rfl, before, after⟩ := exists_way apart hc leads
  rcases List.mem_append.1 hd with hd | hd
  · exact absurd leads' (before d hd)
  · rcases List.mem_cons.1 hd with same | hd
    · exact same
    · exact absurd leads' (after d hd)

theorem walkChild_eq_none (off : ∀ c ∈ children, ¬ Leads s c) : walkChild children s = none := by
  induction children with
  | nil => rfl
  | cons c children ih =>
    obtain ⟨first, others⟩ := List.forall_mem_cons.1 off
    rw [walkChild, if_neg first, ih others]

theorem blocked_iff : Blocked ⟨pfx, children, isEnd, value⟩ s q ↔ ∃ r, s = pfx ++ r ∧
    ((q = pfx ∧ r ≠ [] ∧ EmptyFirst children r) ∨ ∃ c ∈ children, Leads r c ∧ ∃ q', q = pfx ++ q' ∧
      Blocked c r q') := by
  constructor
  · intro h
    cases h with
    | here rest empty => exact ⟨_, rfl, Or.inl ⟨rfl, rest, empty⟩⟩
    | deeper child leads blocked => exact ⟨_, rfl, Or.inr ⟨_, child, leads, _, rfl, blocked⟩⟩
  · rintro ⟨r, rfl, ⟨rfl, rest, empty⟩ | ⟨c, child, leads, q', rfl, blocked⟩⟩
    · exact .here rest empty
    · exact .deeper child leads blocked

theorem overrun_iff : Overrun ⟨pfx, children, isEnd, value⟩ s ↔
    (s = pfx ∧ ∃ c, children.find? RadixNode.isEnd = some c ∧ c.pfx ≠ []) ∨
      ∃ r, s = pfx ++ r ∧ ∃ c ∈ children, Leads r c ∧ Overrun c r := by
  constructor
  · intro h
    cases h with
    | here first longer => exact Or.inl ⟨rfl, _, first, longer⟩
    | deeper child leads overrun => exact Or.inr ⟨_, rfl, _, child, leads, overrun⟩
  · rintro (⟨rfl, c, first, longer⟩ | ⟨r, rfl, c, child, leads, overrun⟩)
    · exact .here first longer
    · exact .deeper child leads overrun

/-- The texts that are keys at a node or below one of its children. -/
theorem walk_eq_end_iff : walk ⟨pfx, children, isEnd, value⟩ s = some (.node true) ↔
    ∃ r, s = pfx ++ r ∧ ((r = [] ∧ isEnd = true) ∨ (r ≠ [] ∧ walkChild children r = some (.node true))) := by
  constructor
  · intro h
    by_cases front : pfx <+: s
    · obtain ⟨r, rfl⟩ := front
      rw [walk_whole] at h
      refine ⟨r, rfl, ?_⟩
      split_ifs at h with empty
      · exact Or.inl ⟨empty, by simpa using h⟩
      · exact Or.inr ⟨empty, h⟩
    · rw [walk, if_neg front] at h
      split_ifs at h
      cases h
  · rintro ⟨r, rfl, ⟨rfl, last⟩ | ⟨rest, h⟩⟩
    · rw [walk_whole, if_pos rfl, last]
    · rw [walk_whole, if_neg rest, h]

theorem longestPrefix_leaf (empty : c.pfx = []) (last : c.isEnd = true) (leaf : c.children = []) :
    c.longestPrefix s = some (some []) := by
  obtain ⟨pfx, children, isEnd, value⟩ := c
  cases empty
  cases last
  cases leaf
  by_cases rest : s = []
  · rw [rest, longestPrefix_nil]
    rfl
  · have := @longestPrefix_append [] s [] true value (fun _ => none) rest (by simp)
    exact this

theorem longestPrefix_aside (some : c.pfx ≠ []) (rest : s ≠ []) (aside : ¬ Leads s c) :
    c.longestPrefix s = Option.some none := by
  obtain ⟨pfx, children, isEnd, value⟩ := c
  exact longestPrefix_off rest fun front => aside ⟨some, firstByte_eq_of_isPrefix some front⟩

/-- Nothing longer than the node is a key where nothing is a key below it. -/
theorem longestAt_node (below : ∀ x, x <+: r → x ≠ [] → walkChild children x ≠ some (.node true)) :
    LongestAt ⟨pfx, children, isEnd, value⟩ (pfx ++ r) (if isEnd then some pfx else none) := by
  have short : ∀ x, x <+: pfx ++ r → walk ⟨pfx, children, isEnd, value⟩ x = some (.node true) →
    x = pfx ∧ isEnd = true := by
    intro x front h
    obtain ⟨y, rfl, ⟨rfl, last⟩ | ⟨rest, h⟩⟩ := walk_eq_end_iff.1 h
    · exact ⟨List.append_nil pfx, last⟩
    · exact absurd h (below y ((List.prefix_append_right_inj pfx).1 front) rest)
  cases isEnd with
  | false => exact fun x front h => absurd (short x front h).2 (by simp)
  | true =>
    refine ⟨walk_eq_end_iff.2 ⟨[], (List.append_nil pfx).symm, Or.inl ⟨rfl, rfl⟩⟩,
      List.prefix_append pfx r, ?_⟩
    intro x front h
    rw [(short x front h).1]

end Children

section Search

variable {K : List Char → Prop} {pfx s q r : List Char} {children : List RadixNode} {isEnd : Bool}
    {value : Option String}
  {t c : RadixNode} {g : RadixNode → Option (List Char)}

/-- The results of the children where an empty edge comes first. -/
theorem findSome_of_emptyFirst (empties : ∀ c ∈ children, c.pfx = [] → g c = some [])
    (asides : ∀ c ∈ children, c.pfx ≠ [] → ¬ Leads r c → g c = none) (first : EmptyFirst children r) :
    children.findSome? g = some [] := by
  obtain ⟨xs, c, ys, rfl, empty, before⟩ := first
  rw [List.findSome?_append, List.findSome?_cons, empties c (by simp) empty]
  cases h : xs.findSome? g with
  | none => rfl
  | some found =>
    obtain ⟨x, hx, hg⟩ := List.exists_of_findSome?_eq_some h
    have hx' : x ∈ xs ++ c :: ys := List.mem_append_left _ hx
    by_cases edge : x.pfx = []
    · rw [empties x hx' edge] at hg
      rw [← Option.some.inj hg]
      rfl
    · rw [asides x hx' edge (before x hx)] at hg
      cases hg

theorem findSome_ends (children : List RadixNode) :
    children.findSome? (fun c => if c.isEnd then some c.pfx else none) =
      (children.find? RadixNode.isEnd).map RadixNode.pfx := by
  induction children with
  | nil => rfl
  | cons c children ih =>
    rw [List.findSome?_cons, List.find?_cons]
    cases c.isEnd <;> simp [ih]

theorem not_blocked_self : ¬ Blocked ⟨pfx, children, isEnd, value⟩ pfx q := by
  rw [blocked_iff]
  rintro ⟨r, same, h⟩
  have rest : r = [] := List.self_eq_append_right.1 same
  subst rest
  rcases h with ⟨-, some, -⟩ | ⟨c, -, leads, -⟩
  · exact some rfl
  · exact leads_nil leads

theorem overrun_self : Overrun ⟨pfx, children, isEnd, value⟩ pfx ↔
    ∃ c, children.find? RadixNode.isEnd = some c ∧ c.pfx ≠ [] := by
  rw [overrun_iff]
  refine ⟨?_, fun h => Or.inl ⟨rfl, h⟩⟩
  rintro (⟨-, h⟩ | ⟨r, same, c, -, leads, -⟩)
  · exact h
  · have rest : r = [] := List.self_eq_append_right.1 same
    exact absurd (rest ▸ leads) leads_nil

/-- The search at the end of the text. -/
theorem outcome_exact (empties : ∀ c ∈ children, c.pfx = [] → isEnd = true)
    (text : pfx ≠ []) : ∃ result, longestPrefix ⟨pfx, children, isEnd, value⟩ pfx = some result ∧
      Outcome ⟨pfx, children, isEnd, value⟩ pfx result := by
  have own : LongestAt ⟨pfx, children, isEnd, value⟩ pfx (if isEnd then some pfx else none) := by
    have := @longestAt_node pfx [] children isEnd value fun x front some =>
      absurd (List.prefix_nil.1 front) some
    rwa [List.append_nil] at this
  have results : ∀ c ∈ children, c.longestPrefix [] = some (if c.isEnd then some c.pfx else none) :=
    fun ⟨_, _, _, _⟩ _ => longestPrefix_nil
  have result := @longestPrefix_append pfx [] children isEnd value _ (by simpa using text) results
  rw [List.append_nil, findSome_ends] at result
  refine ⟨_, result, Or.inr ⟨fun q => not_blocked_self, ?_⟩⟩
  rw [overrun_self]
  cases first : children.find? RadixNode.isEnd with
  | none => exact Or.inr ⟨by simp, by simpa using own⟩
  | some c =>
    by_cases empty : c.pfx = []
    · have last := empties c (List.mem_of_find?_eq_some first) empty
      subst last
      exact Or.inr ⟨by simp [empty], by simpa [empty] using own⟩
    · refine Or.inl ⟨pfx ++ c.pfx, rfl, ⟨c, rfl, empty⟩, ?_⟩
      have := List.length_pos_of_ne_nil empty
      rw [List.length_append]
      omega

/-- The search where an empty edge comes first. -/
theorem outcome_emptyFirst (text : r ≠ []) (results : ∀ c ∈ children, c.longestPrefix r = some (g c))
    (found : children.findSome? g = some []) (first : EmptyFirst children r) :
    ∃ result, longestPrefix ⟨pfx, children, isEnd, value⟩ (pfx ++ r) = some result ∧
      Outcome ⟨pfx, children, isEnd, value⟩ (pfx ++ r) result := by
  have result := @longestPrefix_append pfx r children isEnd value g (by simp [text]) results
  rw [found] at result
  refine ⟨_, result, Or.inl ⟨pfx, by simp, .here text first, fun q' h => ?_⟩⟩
  obtain ⟨r', -, ⟨rfl, -⟩ | ⟨c, -, -, q', rfl, -⟩⟩ := blocked_iff.1 h
  · exact le_rfl
  · simp

/-- The search where no child is on the way. -/
theorem outcome_off (text : r ≠ []) (results : ∀ c ∈ children, c.longestPrefix r = some (g c))
    (asides : ∀ c ∈ children, c.pfx ≠ [] → ¬ Leads r c → g c = none) (first : ¬ EmptyFirst children r)
    (off : ∀ c ∈ children, ¬ Leads r c) : ∃ result, longestPrefix ⟨pfx, children, isEnd, value⟩ (pfx ++ r) =
      some result ∧
      Outcome ⟨pfx, children, isEnd, value⟩ (pfx ++ r) result := by
  have nonempty : ∀ c ∈ children, c.pfx ≠ [] := by
    intro c hc empty
    obtain ⟨xs, ys, rfl⟩ := List.append_of_mem hc
    exact first ⟨xs, c, ys, rfl, empty, fun x hx => off x (List.mem_append_left _ hx)⟩
  have found : children.findSome? g = none :=
    List.findSome?_eq_none_iff.2 fun c hc => asides c hc (nonempty c hc) (off c hc)
  have result := @longestPrefix_append pfx r children isEnd value g (by simp [text]) results
  rw [found] at result
  refine ⟨_, result, Or.inr ⟨fun q h => ?_, Or.inr ⟨fun h => ?_, ?_⟩⟩⟩
  · obtain ⟨r', same, h⟩ := blocked_iff.1 h
    obtain rfl := List.append_cancel_left same
    rcases h with ⟨-, -, empty⟩ | ⟨c, hc, leads, -⟩
    · exact first empty
    · exact off c hc leads
  · rcases overrun_iff.1 h with ⟨same, -⟩ | ⟨r', same, c, hc, leads, -⟩
    · exact text (List.append_right_eq_self.1 same)
    · obtain rfl := List.append_cancel_left same
      exact off c hc leads
  · refine longestAt_node fun x front some => ?_
    rw [walkChild_eq_none fun c hc leads =>
      off c hc ⟨leads.1, leads.2.trans (firstByte_eq_of_isPrefix some front)⟩]
    simp

/-! ### A child on the way -/

theorem blocked_way (apart : Apart children) (first : ¬ EmptyFirst children r) (hc : c ∈ children)
    (leads : Leads r c) :
    Blocked ⟨pfx, children, isEnd, value⟩ (pfx ++ r) q ↔ ∃ q', q = pfx ++ q' ∧ Blocked c r q' := by
  rw [blocked_iff]
  constructor
  · rintro ⟨r', same, ⟨-, -, empty⟩ | ⟨d, hd, leads', q', rfl, h⟩⟩
    · obtain rfl := List.append_cancel_left same
      exact absurd empty first
    · obtain rfl := List.append_cancel_left same
      obtain rfl := eq_of_leads apart hc leads hd leads'
      exact ⟨q', rfl, h⟩
  · rintro ⟨q', rfl, h⟩
    exact ⟨r, rfl, Or.inr ⟨c, hc, leads, q', rfl, h⟩⟩

theorem overrun_way (text : r ≠ []) (apart : Apart children) (hc : c ∈ children) (leads : Leads r c) :
    Overrun ⟨pfx, children, isEnd, value⟩ (pfx ++ r) ↔ Overrun c r := by
  rw [overrun_iff]
  constructor
  · rintro (⟨same, -⟩ | ⟨r', same, d, hd, leads', h⟩)
    · exact absurd (List.append_right_eq_self.1 same) text
    · obtain rfl := List.append_cancel_left same
      obtain rfl := eq_of_leads apart hc leads hd leads'
      exact h
  · exact fun h => Or.inr ⟨r, rfl, c, hc, leads, h⟩

/-- The child on the way decides; where it finds nothing, an empty edge may be found. -/
theorem findSome_way (apart : Apart children)
    (empties : ∀ c ∈ children, c.pfx = [] → g c = some [] ∧ isEnd = true)
    (asides : ∀ c ∈ children, c.pfx ≠ [] → ¬ Leads r c → g c = none) (first : ¬ EmptyFirst children r)
    (hc : c ∈ children) (leads : Leads r c) : children.findSome? g = g c ∨
      (g c = none ∧ children.findSome? g = some [] ∧ isEnd = true) := by
  obtain ⟨xs, ys, split, before, after⟩ := exists_way apart hc leads
  have nothing : xs.findSome? g = none := by
    refine List.findSome?_eq_none_iff.2 fun x hx => ?_
    have hx' : x ∈ children := split ▸ List.mem_append_left _ hx
    refine asides x hx' (fun empty => ?_) (before x hx)
    obtain ⟨xs', ys', rfl⟩ := List.append_of_mem hx
    refine first ⟨xs', x, ys' ++ c :: ys, by simp [split], empty, fun y hy => ?_⟩
    exact before y (List.mem_append_left _ hy)
  have found : children.findSome? g = (g c).or (ys.findSome? g) := by
    rw [split, List.findSome?_append, nothing, List.findSome?_cons]
    cases g c <;> rfl
  rw [found]
  cases own : g c with
  | some result => exact Or.inl rfl
  | none =>
    rw [Option.none_or]
    cases rest : ys.findSome? g with
    | none => exact Or.inl rfl
    | some result =>
      obtain ⟨y, hy, hg⟩ := List.exists_of_findSome?_eq_some rest
      have hy' : y ∈ children := split ▸ List.mem_append_right _ (List.mem_cons_of_mem _ hy)
      by_cases edge : y.pfx = []
      · obtain ⟨empty, last⟩ := empties y hy' edge
        exact Or.inr ⟨rfl, hg.symm.trans empty, last⟩
      · rw [asides y hy' edge (after y hy)] at hg
        cases hg

/-- The longest key below a child is the longest one at the node. -/
theorem LongestAt.append {y : List Char} (apart : Apart children) (hc : c ∈ children) (leads : Leads r c)
    (h : LongestAt c r (some y)) : LongestAt ⟨pfx, children, isEnd, value⟩ (pfx ++ r) (some (pfx ++ y)) := by
  have below : ∀ x, x <+: r → x ≠ [] → walkChild children x = c.walk x := fun x front some =>
    walkChild_of_leads apart hc ⟨leads.1, leads.2.trans (firstByte_eq_of_isPrefix some front).symm⟩
  obtain ⟨key, front, most⟩ := h
  have text : y ≠ [] := by
    rintro rfl
    obtain ⟨pfx', children', isEnd', value'⟩ := c
    rw [walk_nil leads.1] at key
    cases key
  refine ⟨walk_eq_end_iff.2 ⟨y, rfl, Or.inr ⟨text, by rwa [below y front text]⟩⟩,
    (List.prefix_append_right_inj pfx).2 front, fun x front' key' => ?_⟩
  obtain ⟨z, rfl, ⟨rfl, -⟩ | ⟨rest, h'⟩⟩ := walk_eq_end_iff.1 key'
  · simp
  · have front'' := (List.prefix_append_right_inj pfx).1 front'
    rw [below z front'' rest] at h'
    simpa using most z front'' h'

/-- The search where a child is on the way. -/
theorem outcome_way (text : r ≠ []) (apart : Apart children)
    (results : ∀ c ∈ children, c.longestPrefix r = some (g c))
    (empties : ∀ c ∈ children, c.pfx = [] → g c = some [] ∧ isEnd = true)
    (asides : ∀ c ∈ children, c.pfx ≠ [] → ¬ Leads r c → g c = none) (first : ¬ EmptyFirst children r)
    (hc : c ∈ children) (leads : Leads r c) (outcome : Outcome c r (g c)) :
    ∃ result, longestPrefix ⟨pfx, children, isEnd, value⟩ (pfx ++ r) = some result ∧
      Outcome ⟨pfx, children, isEnd, value⟩ (pfx ++ r) result := by
  have result := @longestPrefix_append pfx r children isEnd value g (by simp [text]) results
  refine ⟨_, result, ?_⟩
  have found := findSome_way apart empties asides first hc leads
  have blocked : ∀ q, Blocked ⟨pfx, children, isEnd, value⟩ (pfx ++ r) q ↔
    ∃ q', q = pfx ++ q' ∧ Blocked c r q' :=
    fun q => blocked_way apart first hc leads
  have still : (∀ q, ¬ Blocked c r q) → ∀ q, ¬ Blocked ⟨pfx, children, isEnd, value⟩ (pfx ++ r) q := by
    intro free q h
    obtain ⟨q', -, h⟩ := (blocked q).1 h
    exact free q' h
  rcases outcome with ⟨q, same, own, least⟩ | ⟨free, ⟨y, same, runs, longer⟩ | ⟨short, longest⟩⟩
  · have child : children.findSome? g = some q := by simpa [same] using found
    rw [child]
    refine Or.inl ⟨pfx ++ q, rfl, (blocked _).2 ⟨q, rfl, own⟩, fun q' h => ?_⟩
    obtain ⟨q'', rfl, inner⟩ := (blocked _).1 h
    simpa using least q'' inner
  · have child : children.findSome? g = some y := by simpa [same] using found
    rw [child]
    exact Or.inr ⟨still free,
      Or.inl ⟨pfx ++ y, rfl, (overrun_way text apart hc leads).2 runs, by simpa using longer⟩⟩
  · refine Or.inr ⟨still free, Or.inr ⟨fun h => short ((overrun_way text apart hc leads).1 h), ?_⟩⟩
    cases h : g c with
    | some y =>
      have child : children.findSome? g = some y := by simpa [h] using found
      rw [child]
      exact (h ▸ longest).append apart hc leads
    | none =>
      have own : LongestAt ⟨pfx, children, isEnd, value⟩ (pfx ++ r) (if isEnd then some pfx else none) := by
        refine longestAt_node fun x front some => ?_
        rw [walkChild_of_leads apart hc ⟨leads.1, leads.2.trans (firstByte_eq_of_isPrefix some front).symm⟩]
        rw [h] at longest
        exact longest x front
      rcases found with child | ⟨-, child, last⟩
      · rw [child, h]
        exact own
      · rw [child]
        rw [if_pos last] at own
        simpa using own

/-- What is found from a node on. -/
theorem outcome_longestPrefix (shaped : Shaped K t)
    (ends : ∀ x, t.pfx = [] ∨ Leads x t → K x → t.walk x = some (.node true)) (text : s ≠ []) :
    ∃ result, t.longestPrefix s = some result ∧ Outcome t s result := by
  induction t using induct generalizing K s with
  | node pfx children isEnd value ih =>
    cases shaped with
    | node shapes apart below =>
      have marked : ∀ c ∈ children, c.pfx = [] → isEnd = true := by
        intro c hc empty
        obtain ⟨-, -, some, key⟩ := shapes c hc empty
        obtain ⟨x, same, ⟨-, last⟩ | ⟨rest, -⟩⟩ := walk_eq_end_iff.1 (ends pfx (Or.inr ⟨some, rfl⟩) key)
        · exact last
        · exact absurd (List.self_eq_append_right.1 same) rest
      by_cases front : pfx <+: s
      · obtain ⟨r, rfl⟩ := front
        by_cases rest : r = []
        · rw [rest, List.append_nil] at text ⊢
          exact outcome_exact marked text
        · have results : ∀ c ∈ children, c.longestPrefix r = some ((c.longestPrefix r).getD none) := by
            intro c _
            obtain ⟨result, h⟩ := longestPrefix_isSome c r
            rw [h, Option.getD_some]
          have empties : ∀ c ∈ children, c.pfx = [] → (c.longestPrefix r).getD none = some [] := by
            intro c hc empty
            obtain ⟨last, leaf, -⟩ := shapes c hc empty
            rw [longestPrefix_leaf empty last leaf, Option.getD_some]
          have asides : ∀ c ∈ children, c.pfx ≠ [] → ¬ Leads r c → (c.longestPrefix r).getD none = none := by
            intro c _ some aside
            rw [longestPrefix_aside some rest aside, Option.getD_some]
          by_cases first : EmptyFirst children r
          · exact outcome_emptyFirst rest results (findSome_of_emptyFirst empties asides first) first
          · by_cases way : ∃ c ∈ children, Leads r c
            · obtain ⟨c, hc, leads⟩ := way
              have inner : ∀ x, c.pfx = [] ∨ Leads x c → K (pfx ++ x) → c.walk x = some (.node true) := by
                intro x reaches key
                have leads' := reaches.resolve_left leads.1
                have some : x ≠ [] := fun empty => leads_nil (empty ▸ leads')
                have reached : pfx = [] ∨ Leads (pfx ++ x) ⟨pfx, children, isEnd, value⟩ := by
                  by_cases root : pfx = []
                  · exact Or.inl root
                  · exact Or.inr ⟨root, (firstByte_append root).symm⟩
                have whole := ends (pfx ++ x) reached key
                rw [walk_whole, if_neg some, walkChild_of_leads apart hc leads'] at whole
                exact whole
              obtain ⟨result, h, outcome⟩ := ih c hc (below c hc) inner rest
              refine outcome_way rest apart results (fun c hc empty =>
                ⟨empties c hc empty, marked c hc empty⟩) asides first
                hc leads ?_
              rwa [h, Option.getD_some]
            · exact outcome_off rest results asides first fun c hc leads => way ⟨c, hc, leads⟩
      · refine ⟨_, longestPrefix_off text front,
          Or.inr ⟨fun q h => ?_, Or.inr ⟨fun h => ?_, fun x back h => ?_⟩⟩⟩
        · obtain ⟨r, rfl, -⟩ := blocked_iff.1 h
          exact front (List.prefix_append pfx r)
        · rcases overrun_iff.1 h with ⟨rfl, -⟩ | ⟨r, rfl, -⟩
          · exact front List.prefix_rfl
          · exact front (List.prefix_append pfx r)
        · obtain ⟨r, rfl, -⟩ := walk_eq_end_iff.1 h
          exact front ((List.prefix_append pfx r).trans back)

end Search

end RadixNode

end TORdex
