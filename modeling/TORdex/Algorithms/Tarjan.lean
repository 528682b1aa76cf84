import TORdex.Algorithms.Kosaraju
import TORdex.Core.Primitives

/-!
# Tarjan's algorithm

One search, with the nodes of unfinished classes on a stack.  A node is the root of its class when its low link
is its own index; then the class is what lies on the stack from the node on.  `none` stands for a panic, and
for a depth of recursion that the fuel does not allow.
-/

namespace TORdex

open Relation (ReflTransGen)
open Reachability

/-- The variables of the search.  The top of the stack comes first. -/
structure TarjanState where
  index : ℕ
  indices : HashMap ℕ ℕ
  lowlink : HashMap ℕ ℕ
  onStack : Finset ℕ
  stack : List ℕ
  sccs : List (List ℕ)

namespace TarjanState

/-- Nothing is visited. -/
def new : TarjanState := ⟨0, ∅, ∅, ∅, [], []⟩

/-- The node gets the next index, and comes onto the stack. -/
def enter (s : TarjanState) (node : ℕ) : TarjanState where
  index := s.index + 1
  indices := s.indices.insert node s.index
  lowlink := s.lowlink.insert node s.index
  onStack := insert node s.onStack
  stack := node :: s.stack
  sccs := s.sccs

/-- The low link of the node is lowered to a number that is less. -/
def lower (s : TarjanState) (node n : ℕ) : Option TarjanState := do
  let nodeLl ← s.lowlink.lookup node
  some { s with lowlink := s.lowlink.insert node (min nodeLl n) }

/-- The body of the loop over the neighbours. -/
def visit (strongconnect : ℕ → TarjanState → Option TarjanState) (node : ℕ) (s : TarjanState)
    (neighbor : ℕ) : Option TarjanState :=
  if (s.indices.lookup neighbor).isNone then do
    let s ← strongconnect neighbor s
    s.lower node ((s.lowlink.lookup neighbor).getD usizeMax)
  else if neighbor ∈ s.onStack then do
    let neighborIdx ← s.indices.lookup neighbor
    s.lower node neighborIdx
  else some s

/-- The loop that pops a component: what is popped, and what remains. -/
def popComponent (node : ℕ) : List ℕ → Finset ℕ → Option (List ℕ × List ℕ × Finset ℕ)
  | [], _ => none
  | w :: stack, onStack =>
    if w = node then some ([w], stack, onStack.erase w)
    else (popComponent node stack (onStack.erase w)).map fun (scc, rest) => (w :: scc, rest)

/-- The end of a call: the component of a root is popped. -/
def leave (s : TarjanState) (node : ℕ) : Option TarjanState :=
  if s.lowlink.lookup node = s.indices.lookup node then do
    let (scc, stack, onStack) ← popComponent node s.stack s.onStack
    some { s with
      stack
      onStack
      sccs := s.sccs ++ [sortNodes scc] }
  else some s

end TarjanState

namespace Graph

variable {W : Type}

/-- The search from a node. -/
def strongconnect (g : Graph W) : ℕ → ℕ → TarjanState → Option TarjanState
  | 0, _, _ => none
  | fuel + 1, node, s => do
    let s ← (g.neighbors node).foldlM
      (fun s edge => TarjanState.visit (strongconnect g fuel) node s edge.1) (s.enter node)
    s.leave node

/-- The strongly connected components. -/
def tarjanScc (g : Graph W) : Option (List (List ℕ)) := do
  let s ← g.nodes.foldlM
    (fun s node =>
      if (s.indices.lookup node).isNone then g.strongconnect g.searchDepth node s else some s)
    TarjanState.new
  some s.sccs

end Graph

/-! ## The invariant -/

namespace TarjanState

variable {W : Type} {g : Graph W} {s s' s'' : TarjanState} {gray : Set ℕ} {node : ℕ} {new new' : List ℕ}

/-- The search has entered the node. -/
def Visited (s : TarjanState) (x : ℕ) : Prop := x ∈ s.indices

/-- The index of a visited node. -/
def num (s : TarjanState) (x : ℕ) : ℕ := (s.indices.lookup x).getD 0

/-- What holds while the calls for the nodes in `gray` are running.  A running node reaches what lies above it,
and everything on the stack reaches a running node below it. -/
structure Valid (g : Graph W) (gray : Set ℕ) (s : TarjanState) : Prop where
  known : ∀ x, s.Visited x → x ∈ g.appearing
  below : ∀ x, s.Visited x → s.num x < s.index
  ordered : s.stack.Pairwise fun x y => s.num y < s.num x
  stackVisited : ∀ x ∈ s.stack, s.Visited x
  onStack : ∀ x, x ∈ s.onStack ↔ x ∈ s.stack
  onPath : ∀ x ∈ gray, x ∈ s.stack
  black : ∀ x, s.Visited x → x ∉ gray → ∀ y, g.Edge x y → s.Visited y
  closed : ∀ x, s.Visited x → x ∉ s.stack → ∀ y, g.Edge x y → y ∉ s.stack
  up : ∀ x ∈ gray, ∀ y ∈ s.stack, s.num x ≤ s.num y → ReflTransGen g.Edge x y
  down : ∀ x ∈ s.stack, ∃ y ∈ gray, s.num y ≤ s.num x ∧ ReflTransGen g.Edge x y
  classes : SortedClasses g.Edge {x | s.Visited x ∧ x ∉ s.stack} s.sccs

/-- What a call does to the state: it visits more nodes, with larger indices, leaves the variables of the others
alone, and leaves some of the nodes that it has visited on the stack. -/
structure Extends (s s' : TarjanState) (new : List ℕ) : Prop where
  index : s.index ≤ s'.index
  indices : ∀ x, s.Visited x → s'.indices.lookup x = s.indices.lookup x
  lowlink : ∀ x, s.Visited x → s'.lowlink.lookup x = s.lowlink.lookup x
  later : ∀ x, s'.Visited x → ¬ s.Visited x → s.index ≤ s'.num x
  stack : s'.stack = new ++ s.stack
  unvisited : ∀ x ∈ new, ¬ s.Visited x

theorem visited_iff {x : ℕ} : s.Visited x ↔ (s.indices.lookup x).isSome = true := Finmap.lookup_isSome.symm

theorem isNone_iff {x : ℕ} : (s.indices.lookup x).isNone = true ↔ ¬ s.Visited x := by
  rw [visited_iff, Option.not_isSome_iff_eq_none, Option.isNone_iff_eq_none]

theorem lookup_of_visited {x : ℕ} (h : s.Visited x) : s.indices.lookup x = some (s.num x) := by
  obtain ⟨i, hi⟩ := Option.isSome_iff_exists.1 (visited_iff.1 h)
  rw [num, hi, Option.getD_some]

theorem Extends.visited (h : Extends s s' new) {x : ℕ} (hx : s.Visited x) : s'.Visited x := by
  rw [visited_iff, h.indices x hx]
  exact visited_iff.1 hx

theorem Extends.num (h : Extends s s' new) {x : ℕ} (hx : s.Visited x) : s'.num x = s.num x := by
  rw [TarjanState.num, h.indices x hx, TarjanState.num]

theorem Extends.refl (s : TarjanState) : Extends s s [] where
  index := le_rfl
  indices _ _ := rfl
  lowlink _ _ := rfl
  later _ hx hn := absurd hx hn
  stack := rfl
  unvisited _ hx := absurd hx List.not_mem_nil

theorem Extends.trans (h : Extends s s' new) (h' : Extends s' s'' new') :
    Extends s s'' (new' ++ new) where
  index := h.index.trans h'.index
  indices x hx := (h'.indices x (h.visited hx)).trans (h.indices x hx)
  lowlink x hx := (h'.lowlink x (h.visited hx)).trans (h.lowlink x hx)
  later x hx hn := by
    by_cases mid : s'.Visited x
    · rw [h'.num mid]
      exact h.later x mid hn
    · exact h.index.trans (h'.later x hx mid)
  stack := by rw [h'.stack, h.stack, List.append_assoc]
  unvisited x hx := by
    rcases List.mem_append.1 hx with hx | hx
    · exact fun old => h'.unvisited x hx (h.visited old)
    · exact h.unvisited x hx

/-- What was visited before is on the stack after a call when it was before. -/
theorem Extends.mem_stack (h : Extends s s' new) {x : ℕ} (hx : s.Visited x) (hs : x ∈ s'.stack) :
    x ∈ s.stack := by
  rw [h.stack] at hs
  exact (List.mem_append.1 hs).resolve_left fun hn => h.unvisited x hn hx

/-- The low links are not in the invariant. -/
theorem Valid.withLowlink (h : Valid g gray s) (lowlink : HashMap ℕ ℕ) :
    Valid g gray { s with lowlink } :=
  ⟨h.known, h.below, h.ordered, h.stackVisited, h.onStack, h.onPath, h.black, h.closed, h.up, h.down, h.classes⟩

/-! ## The beginning of a call -/

theorem visited_enter {x : ℕ} : (s.enter node).Visited x ↔ x = node ∨ s.Visited x :=
  Finmap.mem_insert

theorem num_enter_self : (s.enter node).num node = s.index := by
  rw [num, enter, Finmap.lookup_insert, Option.getD_some]

theorem extends_enter (unseen : ¬ s.Visited node) : Extends s (s.enter node) [node] where
  index := Nat.le_succ _
  indices x hx := Finmap.lookup_insert_of_ne _ fun same => unseen (same ▸ hx)
  lowlink x hx := Finmap.lookup_insert_of_ne _ fun same => unseen (same ▸ hx)
  later x hx hn := by
    have same := (visited_enter.1 hx).resolve_right hn
    rw [same, num_enter_self]
  stack := rfl
  unvisited x hx := List.mem_singleton.1 hx ▸ unseen

/-- A node may start that all running nodes reach. -/
theorem Valid.enter (h : Valid g gray s) (unseen : ¬ s.Visited node) (hn : node ∈ g.appearing)
    (path : ∀ x ∈ gray, ReflTransGen g.Edge x node) :
    Valid g (insert node gray) (s.enter node) := by
  have ext := extends_enter unseen
  have num_old : ∀ {x}, s.Visited x → (s.enter node).num x = s.num x := ext.num
  have old_ne : ∀ {x}, s.Visited x → x ≠ node := fun hx same => unseen (same ▸ hx)
  have pathVisited : ∀ x ∈ gray, s.Visited x := fun x hx => h.stackVisited x (h.onPath x hx)
  constructor
  · intro x hx
    rcases visited_enter.1 hx with rfl | hx
    · exact hn
    · exact h.known x hx
  · intro x hx
    rcases visited_enter.1 hx with rfl | hx
    · rw [num_enter_self]
      exact Nat.lt_succ_self _
    · rw [num_old hx]
      exact Nat.lt_succ_of_lt (h.below x hx)
  · refine List.pairwise_cons.2 ⟨fun x hx => ?_, h.ordered.imp_of_mem fun hx hy lt => ?_⟩
    · rw [num_enter_self, num_old (h.stackVisited x hx)]
      exact h.below x (h.stackVisited x hx)
    · rwa [num_old (h.stackVisited _ hx), num_old (h.stackVisited _ hy)]
  · intro x hx
    rcases List.mem_cons.1 hx with rfl | hx
    · exact visited_enter.2 (.inl rfl)
    · exact visited_enter.2 (.inr (h.stackVisited x hx))
  · intro x
    rw [TarjanState.enter, Finset.mem_insert, h.onStack, List.mem_cons]
  · rintro x (rfl | hx)
    · exact List.mem_cons_self
    · exact List.mem_cons_of_mem _ (h.onPath x hx)
  · intro x hx hg y edge
    have hx' := (visited_enter.1 hx).resolve_left fun same => hg (.inl same)
    exact visited_enter.2 (.inr (h.black x hx' (fun m => hg (.inr m)) y edge))
  · intro x hx hs y edge hy
    have hx' := (visited_enter.1 hx).resolve_left fun same => hs (same ▸ List.mem_cons_self)
    have off : x ∉ s.stack := fun m => hs (List.mem_cons_of_mem _ m)
    rcases List.mem_cons.1 hy with rfl | hy
    · exact unseen (h.black x hx' (fun m => off (h.onPath x m)) y edge)
    · exact h.closed x hx' off y edge hy
  · rintro x hx y hy le
    rcases List.mem_cons.1 hy with rfl | hy
    · rcases hx with rfl | hx
      · exact .refl
      · exact path x hx
    · have below := h.below y (h.stackVisited y hy)
      rw [num_old (h.stackVisited y hy)] at le
      rcases hx with rfl | hx
      · rw [num_enter_self] at le
        omega
      · rw [num_old (pathVisited x hx)] at le
        exact h.up x hx y hy le
  · intro x hx
    rcases List.mem_cons.1 hx with rfl | hx
    · exact ⟨x, .inl rfl, le_rfl, .refl⟩
    · obtain ⟨y, hy, le, reach⟩ := h.down x hx
      exact ⟨y, .inr hy, by rwa [num_old (pathVisited y hy), num_old (h.stackVisited x hx)], reach⟩
  · have same : {x | (s.enter node).Visited x ∧ x ∉ (s.enter node).stack} =
        {x | s.Visited x ∧ x ∉ s.stack} := by
      ext x
      show (s.enter node).Visited x ∧ x ∉ node :: s.stack ↔ s.Visited x ∧ x ∉ s.stack
      rw [visited_enter, List.mem_cons, not_or]
      constructor
      · rintro ⟨hx, hne, off⟩
        exact ⟨hx.resolve_left hne, off⟩
      · rintro ⟨hx, off⟩
        exact ⟨.inr hx, old_ne hx, off⟩
    exact same ▸ h.classes

/-! ## The loop over the neighbours -/

/-- The number is the index of a node on the stack that the node reaches. -/
def Links (g : Graph W) (s : TarjanState) (node n : ℕ) : Prop :=
  ∃ u ∈ s.stack, s.num u = n ∧ ReflTransGen g.Edge node u

/-- In the loop of the call for `node`: `new` is what the call has put onto the stack above the node, `ll` the low
link of the node, `done` the neighbours so far. -/
structure Running (g : Graph W) (gray : Set ℕ) (s : TarjanState) (node : ℕ) (t : TarjanState) (new : List ℕ)
    (ll : ℕ) (done : List ℕ) : Prop where
  before : Valid g gray s
  valid : Valid g (insert node gray) t
  ext : Extends s t (new ++ [node])
  own : t.num node = s.index
  low : t.lowlink.lookup node = some ll
  le : ll ≤ s.index
  reach : ll = s.index ∨ Links g s node ll
  complete : ∀ x ∈ new, ∀ y, g.Edge x y → y ∈ t.stack → ll ≤ t.num y
  seen : ∀ y ∈ done, t.Visited y ∧ (y ∈ t.stack → ll ≤ t.num y)

/-- After the call for `node`: its class has been popped, or its low link is the index of a node that was on the
stack before.  No edge from the new nodes on the stack leads lower. -/
structure Returned (g : Graph W) (gray : Set ℕ) (s : TarjanState) (node : ℕ) (s' : TarjanState)
    (new : List ℕ) (ll : ℕ) : Prop where
  valid : Valid g gray s'
  ext : Extends s s' new
  visited : s'.Visited node
  low : s'.lowlink.lookup node = some ll
  reach : new = [] ∧ s.index ≤ ll ∨ Links g s node ll
  complete : ∀ x ∈ new, ∀ y, g.Edge x y → y ∈ s'.stack → ll ≤ s'.num y

theorem lower_eq {ll n : ℕ} (h : s.lowlink.lookup node = some ll) :
    s.lower node n = some { s with lowlink := s.lowlink.insert node (min ll n) } := by
  rw [lower, h]
  rfl

section Running

variable {t t' : TarjanState} {ll lw n w : ℕ} {done : List ℕ}

theorem Running.unseen (h : Running g gray s node t new ll done) : ¬ s.Visited node :=
  h.ext.unvisited node (List.mem_append_right _ (List.mem_singleton_self _))

theorem Running.node_visited (h : Running g gray s node t new ll done) : t.Visited node :=
  h.valid.stackVisited node (h.valid.onPath node (.inl rfl))

/-- What lies above the node has larger indices. -/
theorem Running.stack_cases (h : Running g gray s node t new ll done) {x : ℕ} (hx : x ∈ t.stack) :
    s.index ≤ t.num x ∨ x ∈ s.stack ∧ t.num x = s.num x := by
  by_cases old : s.Visited x
  · exact .inr ⟨h.ext.mem_stack old hx, h.ext.num old⟩
  · exact .inl (h.ext.later x (h.valid.stackVisited x hx) old)

theorem Running.new_visited (h : Running g gray s node t new ll done) {x : ℕ} (hx : x ∈ new) :
    t.Visited x := by
  refine h.valid.stackVisited x ?_
  rw [h.ext.stack]
  exact List.mem_append_left _ (List.mem_append_left _ hx)

/-- The calls for the new nodes have returned. -/
theorem Running.new_not_running (h : Running g gray s node t new ll done) {x : ℕ} (hx : x ∈ new) :
    x ∉ insert node gray := by
  rintro (rfl | path)
  · have ordered := h.valid.ordered
    rw [h.ext.stack, List.append_assoc] at ordered
    exact lt_irrefl _ ((List.pairwise_append.1 ordered).2.2 x hx x List.mem_cons_self)
  · exact h.ext.unvisited x (List.mem_append_left _ hx) (h.before.stackVisited x (h.before.onPath x path))

theorem Running.reach_min (h : Running g gray s node t new ll done)
    (hn : s.index ≤ n ∨ Links g s node n) : min ll n = s.index ∨ Links g s node (min ll n) := by
  have le := h.le
  rcases le_total ll n with hl | hl
  · rw [min_eq_left hl]
    exact h.reach
  · rw [min_eq_right hl]
    rcases hn with hn | hn
    · exact .inl (by omega)
    · exact .inr hn

/-- The low link is lowered to an index on the stack that the node reaches, or stays as it is. -/
theorem Running.lower (h : Running g gray s node t new ll done)
    (hn : s.index ≤ n ∨ Links g s node n) :
    Running g gray s node { t with lowlink := t.lowlink.insert node (min ll n) } new (min ll n) done where
  before := h.before
  valid := h.valid.withLowlink _
  ext :=
    { h.ext with
      lowlink := fun x hx => by
        have hne : x ≠ node := fun same => h.unseen (same ▸ hx)
        exact (Finmap.lookup_insert_of_ne _ hne).trans (h.ext.lowlink x hx) }
  own := h.own
  low := Finmap.lookup_insert _
  le := (min_le_left _ _).trans h.le
  reach := h.reach_min hn
  complete x hx y edge hy := (min_le_left _ _).trans (h.complete x hx y edge hy)
  seen y hy := ⟨(h.seen y hy).1, fun m => (min_le_left _ _).trans ((h.seen y hy).2 m)⟩

/-- A neighbour on the stack. -/
theorem Running.onStack (h : Running g gray s node t new ll done) (edge : g.Edge node w) (hw : w ∈ t.stack) :
    Running g gray s node { t with lowlink := t.lowlink.insert node (min ll (t.num w)) } new
      (min ll (t.num w)) (done ++ [w]) := by
  have lowered : Running g gray s node
      { t with lowlink := t.lowlink.insert node (min ll (t.num w)) } new (min ll (t.num w)) done := by
    refine h.lower ?_
    rcases h.stack_cases hw with later | ⟨old, same⟩
    · exact .inl later
    · exact .inr ⟨w, old, same.symm, .single edge⟩
  have here : t.Visited w ∧ (w ∈ t.stack → min ll (t.num w) ≤ t.num w) :=
    ⟨h.valid.stackVisited w hw, fun _ => min_le_right _ _⟩
  exact { lowered with seen := forall_mem_concat lowered.seen here }

/-- A neighbour whose class has been popped. -/
theorem Running.popped (h : Running g gray s node t new ll done) (visited : t.Visited w) (hw : w ∉ t.stack) :
    Running g gray s node t new ll (done ++ [w]) :=
  { h with seen := forall_mem_concat h.seen ⟨visited, fun m => absurd m hw⟩ }

/-- A new neighbour, after the call for it. -/
theorem Running.child (h : Running g gray s node t new ll done) (edge : g.Edge node w) (unseen : ¬ t.Visited w)
    (ret : Returned g (insert node gray) t w t' new' lw) :
    Running g gray s node { t' with lowlink := t'.lowlink.insert node (min ll lw) } (new' ++ new) (min ll lw)
      (done ++ [w]) := by
  have stay : ∀ {y}, t.Visited y → y ∈ t'.stack → ll ≤ t.num y → min ll lw ≤ t'.num y := fun hy _ le => by
    rw [ret.ext.num hy]
    exact (min_le_left _ _).trans le
  have reached : s.index ≤ lw ∨ Links g s node lw := by
    rcases ret.reach with ⟨-, later⟩ | ⟨u, hu, rfl, reach⟩
    · exact .inl (h.ext.index.trans later)
    · rcases h.stack_cases hu with later | ⟨old, same⟩
      · exact .inl later
      · exact .inr ⟨u, old, same.symm, .head edge reach⟩
  have ext : Extends s t' (new' ++ new ++ [node]) := by
    rw [List.append_assoc]
    exact h.ext.trans ret.ext
  refine ⟨h.before, ret.valid.withLowlink _, { ext with lowlink := fun x hx => ?_ }, ?_, Finmap.lookup_insert _,
    (min_le_left _ _).trans h.le, h.reach_min reached, fun x hx y step hy => ?_, fun y hy => ?_⟩
  · have hne : x ≠ node := fun same => h.unseen (same ▸ hx)
    exact (Finmap.lookup_insert_of_ne _ hne).trans (ext.lowlink x hx)
  · exact (ret.ext.num h.node_visited).trans h.own
  · rcases List.mem_append.1 hx with hx | hx
    · exact (min_le_right _ _).trans (ret.complete x hx y step hy)
    · have visited := h.valid.black x (h.new_visited hx) (h.new_not_running hx) y step
      exact stay visited hy (h.complete x hx y step (ret.ext.mem_stack visited hy))
  · rcases List.mem_append.1 hy with hy | hy
    · obtain ⟨visited, low⟩ := h.seen y hy
      exact ⟨ret.ext.visited visited, fun m => stay visited m (low (ret.ext.mem_stack visited m))⟩
    · rw [List.mem_singleton.1 hy]
      refine ⟨ret.visited, fun m => (min_le_right _ _).trans ?_⟩
      rcases ret.reach with ⟨empty, -⟩ | ⟨u, hu, same, -⟩
      · have stack := ret.ext.stack
        rw [empty, List.nil_append] at stack
        exact absurd (h.valid.stackVisited w (stack ▸ m)) unseen
      · have below := h.valid.below u (h.valid.stackVisited u hu)
        have later := ret.ext.later w ret.visited unseen
        show lw ≤ t'.num w
        omega

/-! ## The end of a call -/

theorem popComponent_eq (rest : List ℕ) (hn : node ∉ new) (onStack : Finset ℕ) :
    ∃ onStack', popComponent node (new ++ node :: rest) onStack = some (new ++ [node], rest, onStack') ∧
      ∀ x, x ∈ onStack' ↔ x ∈ onStack ∧ x ∉ new ++ [node] := by
  induction new generalizing onStack with
  | nil =>
    refine ⟨onStack.erase node, by simp [popComponent], fun x => ?_⟩
    rw [Finset.mem_erase, List.nil_append, List.mem_singleton, and_comm]
  | cons y new ih =>
    have hy : y ≠ node := fun same => hn (same ▸ List.mem_cons_self)
    obtain ⟨onStack', run, mem⟩ := ih (fun m => hn (List.mem_cons_of_mem _ m)) (onStack.erase y)
    refine ⟨onStack', ?_, fun x => ?_⟩
    · rw [List.cons_append, popComponent, if_neg hy, run]
      rfl
    · rw [mem, Finset.mem_erase, List.cons_append, List.mem_cons, not_or]
      tauto

/-- The loop is over. -/
theorem Running.neighbors (h : Running g gray s node t new ll ((g.neighbors node).map Prod.fst)) {x y : ℕ}
    (hx : x ∈ new ++ [node]) (edge : g.Edge x y) : t.Visited y ∧ (y ∈ t.stack → ll ≤ t.num y) := by
  rcases List.mem_append.1 hx with hx | hx
  · exact ⟨h.valid.black x (h.new_visited hx) (h.new_not_running hx) y edge, h.complete x hx y edge⟩
  · rw [List.mem_singleton.1 hx] at edge
    exact h.seen y edge

/-- Of the running nodes, only the node of this call has not started before. -/
theorem Running.black (h : Running g gray s node t new ll ((g.neighbors node).map Prod.fst)) {x y : ℕ}
    (hx : t.Visited x) (hg : x ∉ gray) (edge : g.Edge x y) : t.Visited y := by
  by_cases same : x = node
  · exact (h.neighbors (List.mem_append_right _ (List.mem_singleton.2 same)) edge).1
  · refine h.valid.black x hx ?_ y edge
    rintro (eq | m)
    · exact same eq
    · exact hg m

theorem Running.old_num (h : Running g gray s node t new ll done) {x : ℕ} (hx : x ∈ s.stack) :
    t.num x = s.num x ∧ s.num x < s.index :=
  ⟨h.ext.num (h.before.stackVisited x hx), h.before.below x (h.before.stackVisited x hx)⟩

theorem Running.mem_stack (h : Running g gray s node t new ll done) {x : ℕ} :
    x ∈ t.stack ↔ x ∈ new ++ [node] ∨ x ∈ s.stack := by
  rw [h.ext.stack, List.mem_append]

/-- When the low link is the index of the node, no edge leads from its part of the graph to the stack below. -/
theorem Running.leaves_nothing (h : Running g gray s node t new s.index ((g.neighbors node).map Prod.fst))
    (x : ℕ) (hx : t.Visited x ∧ x ∉ s.stack) (y : ℕ) (edge : g.Edge x y) : t.Visited y ∧ y ∉ s.stack := by
  by_cases on : x ∈ t.stack
  · have fresh : x ∈ new ++ [node] := (h.mem_stack.1 on).resolve_right hx.2
    obtain ⟨visited, low⟩ := h.neighbors fresh edge
    refine ⟨visited, fun old => ?_⟩
    have le := low (h.mem_stack.2 (.inr old))
    have num := h.old_num old
    omega
  · have running : x ∉ insert node gray := fun m => on (h.valid.onPath x m)
    exact ⟨h.valid.black x hx.1 running y edge,
      fun old => h.valid.closed x hx.1 on y edge (h.mem_stack.2 (.inr old))⟩

/-- Then the nodes from the node on are its class. -/
theorem Running.isClass (h : Running g gray s node t new s.index ((g.neighbors node).map Prod.fst)) (b : ℕ) :
    b ∈ new ++ [node] ↔ Mutual g.Edge node b := by
  have fresh_off : ∀ {x}, x ∈ new ++ [node] → x ∉ s.stack := fun hx old =>
    h.ext.unvisited _ hx (h.before.stackVisited _ old)
  have fresh_visited : ∀ {x}, x ∈ new ++ [node] → t.Visited x := fun hx =>
    h.valid.stackVisited _ (h.mem_stack.2 (.inl hx))
  constructor
  · intro hb
    have on := h.mem_stack.2 (.inl hb)
    have above : t.num node ≤ t.num b := by
      rw [h.own]
      exact h.ext.later b (fresh_visited hb) (h.ext.unvisited b hb)
    refine ⟨h.valid.up node (.inl rfl) b on above, ?_⟩
    obtain ⟨y, path, -, reach⟩ := h.valid.down b on
    rcases path with rfl | path
    · exact reach
    · have part := mem_of_reach h.leaves_nothing ⟨fresh_visited hb, fresh_off hb⟩ reach
      exact absurd (h.before.onPath y path) part.2
  · intro both
    have self : node ∈ new ++ [node] := List.mem_append_right _ (List.mem_singleton_self _)
    have part := mem_of_reach h.leaves_nothing ⟨fresh_visited self, fresh_off self⟩ both.1
    by_contra hb
    have off : b ∉ t.stack := fun on => (h.mem_stack.1 on).elim hb part.2
    have popped : ∀ x ∈ {x | t.Visited x ∧ x ∉ t.stack}, ∀ y, g.Edge x y →
        y ∈ {x | t.Visited x ∧ x ∉ t.stack} := fun x hx y edge =>
      ⟨h.valid.black x hx.1 (fun m => hx.2 (h.valid.onPath x m)) y edge, h.valid.closed x hx.1 hx.2 y edge⟩
    exact (mem_of_reach popped ⟨part.1, off⟩ both.2).2 (h.mem_stack.2 (.inl self))

/-- The node is no root: it stays on the stack, and so does what is above it. -/
theorem Running.stays (h : Running g gray s node t new ll ((g.neighbors node).map Prod.fst))
    (inner : ll ≠ s.index) : Returned g gray s node t (new ++ [node]) ll := by
  have links : Links g s node ll := h.reach.resolve_left inner
  refine ⟨⟨h.valid.known, h.valid.below, h.valid.ordered, h.valid.stackVisited, h.valid.onStack,
    fun x hx => h.valid.onPath x (.inr hx), fun x hx hg y edge => h.black hx hg edge, h.valid.closed,
    fun x hx => h.valid.up x (.inr hx), fun x hx => ?_, h.valid.classes⟩, h.ext, h.node_visited, h.low,
    .inr links, fun x hx y edge => (h.neighbors hx edge).2⟩
  obtain ⟨y, path, le, reach⟩ := h.valid.down x hx
  rcases path with rfl | path
  · -- the node reaches a node below it, and that one a running one
    obtain ⟨u, hu, num, link⟩ := links
    obtain ⟨z, hz, le', reach'⟩ := h.before.down u hu
    refine ⟨z, hz, ?_, reach.trans (link.trans reach')⟩
    have own := h.own
    have old := h.old_num hu
    rw [(h.old_num (h.before.onPath z hz)).1]
    omega
  · exact ⟨y, path, le, reach⟩

/-- The node is a root: its class is popped. -/
theorem Running.pops (h : Running g gray s node t new s.index ((g.neighbors node).map Prod.fst))
    {onStack : Finset ℕ} (mem : ∀ x, x ∈ onStack ↔ x ∈ t.onStack ∧ x ∉ new ++ [node]) :
    Returned g gray s node { t with
      stack := s.stack
      onStack
      sccs := t.sccs ++ [sortNodes (new ++ [node])] } [] s.index := by
  have below_on : ∀ {x}, x ∈ s.stack → x ∈ t.stack := fun hx => h.mem_stack.2 (.inr hx)
  have ordered := h.valid.ordered
  rw [h.ext.stack, List.pairwise_append] at ordered
  have node_on : node ∈ t.stack := h.valid.onPath node (.inl rfl)
  have off : ∀ x ∈ s.stack, x ∉ new ++ [node] := fun x hx fresh =>
    h.ext.unvisited x fresh (h.before.stackVisited x hx)
  refine ⟨⟨h.valid.known, h.valid.below, ordered.2.1, fun x hx => h.valid.stackVisited x (below_on hx),
    fun x => ?_, h.before.onPath, fun x hx hg y edge => h.black hx hg edge,
    fun x hx hs y edge => (h.leaves_nothing x ⟨hx, hs⟩ y edge).2,
    fun x hx y hy => h.valid.up x (.inr hx) y (below_on hy), fun x hx => ?_, ?_⟩,
    ⟨h.ext.index, h.ext.indices, h.ext.lowlink, h.ext.later, rfl, fun x hx => absurd hx List.not_mem_nil⟩,
    h.node_visited, h.low, .inl ⟨rfl, le_rfl⟩, fun x hx => absurd hx List.not_mem_nil⟩
  · rw [mem, h.valid.onStack, h.mem_stack]
    exact ⟨fun m => m.1.resolve_left m.2, fun m => ⟨.inr m, off x m⟩⟩
  · obtain ⟨y, path, le, reach⟩ := h.before.down x hx
    refine ⟨y, path, ?_, reach⟩
    show t.num y ≤ t.num x
    rw [(h.old_num (h.before.onPath y path)).1, (h.old_num hx).1]
    exact le
  · have nodup : (new ++ [node]).Nodup := ordered.1.imp fun lt same => by
      rw [same] at lt
      exact lt_irrefl _ lt
    have class_eq : ∀ b, b ∈ sortNodes (new ++ [node]) ↔ Mutual g.Edge node b := fun b => by
      rw [mem_sortNodes, h.isClass]
    have grown := h.valid.classes.concat (sortNodes_strict nodup) class_eq fun m => m.2 node_on
    have same : {x | t.Visited x ∧ x ∉ s.stack} =
        {x | t.Visited x ∧ x ∉ t.stack} ∪ {b | b ∈ sortNodes (new ++ [node])} := by
      ext x
      show t.Visited x ∧ x ∉ s.stack ↔ t.Visited x ∧ x ∉ t.stack ∨ x ∈ sortNodes (new ++ [node])
      rw [mem_sortNodes, h.mem_stack, not_or]
      constructor
      · rintro ⟨visited, hs⟩
        by_cases fresh : x ∈ new ++ [node]
        · exact .inr fresh
        · exact .inl ⟨visited, fresh, hs⟩
      · rintro (⟨visited, -, hs⟩ | fresh)
        · exact ⟨visited, hs⟩
        · exact ⟨h.valid.stackVisited x (h.mem_stack.2 (.inl fresh)), fun hs => off x hs fresh⟩
    exact same ▸ grown

/-- The end of the call. -/
theorem Running.leave (h : Running g gray s node t new ll ((g.neighbors node).map Prod.fst)) :
    ∃ s' new', t.leave node = some s' ∧ Returned g gray s node s' new' ll := by
  have index := lookup_of_visited h.node_visited
  rw [h.own] at index
  unfold TarjanState.leave
  rw [h.low, index]
  split_ifs with root
  · obtain rfl := Option.some_inj.1 root
    have apart : node ∉ new := fun m => h.new_not_running m (.inl rfl)
    obtain ⟨onStack, run, mem⟩ := popComponent_eq s.stack apart t.onStack
    rw [h.ext.stack, List.append_assoc, List.singleton_append, run]
    exact ⟨_, [], rfl, h.pops mem⟩
  · exact ⟨t, _, rfl, h.stays fun same => root (by rw [same])⟩

/-! ## The search -/

/-- The loop begins. -/
theorem Valid.running (h : Valid g gray s) (unseen : ¬ s.Visited node) (hn : node ∈ g.appearing)
    (path : ∀ x ∈ gray, ReflTransGen g.Edge x node) :
    Running g gray s node (s.enter node) [] s.index [] where
  before := h
  valid := h.enter unseen hn path
  ext := extends_enter unseen
  own := num_enter_self
  low := Finmap.lookup_insert _
  le := le_rfl
  reach := .inl rfl
  complete _ hx := absurd hx List.not_mem_nil
  seen _ hy := absurd hy List.not_mem_nil

/-- One neighbour, when the call for a new one returns. -/
theorem Running.visit (call : ℕ → TarjanState → Option TarjanState)
    (h : Running g gray s node t new ll done) (edge : g.Edge node w)
    (ret : ¬ t.Visited w → ∃ t' new' lw, call w t = some t' ∧
      Returned g (insert node gray) t w t' new' lw) :
    ∃ t' new' ll', visit call node t w = some t' ∧ Running g gray s node t' new' ll' (done ++ [w]) := by
  unfold TarjanState.visit
  split_ifs with unseen on
  · have unvisited := isNone_iff.1 unseen
    obtain ⟨t', new', lw, run, ret⟩ := ret unvisited
    have low : t'.lowlink.lookup node = some ll := (ret.ext.lowlink node h.node_visited).trans h.low
    refine ⟨_, _, _, ?_, h.child edge unvisited ret⟩
    rw [run]
    show t'.lower node ((t'.lowlink.lookup w).getD usizeMax) = _
    rw [ret.low, Option.getD_some, lower_eq low]
  · have hw : w ∈ t.stack := (h.valid.onStack w).1 on
    refine ⟨_, _, _, ?_, h.onStack edge hw⟩
    rw [lookup_of_visited (h.valid.stackVisited w hw)]
    exact lower_eq h.low
  · have visited : t.Visited w := not_not.1 fun new => unseen (isNone_iff.2 new)
    exact ⟨t, new, ll, rfl, h.popped visited fun m => on ((h.valid.onStack w).2 m)⟩

end Running

/-- A call visits its node, and less is left to visit. -/
theorem card_unvisited_lt (h : Extends s s' new) (hn : node ∈ g.appearing) (unseen : ¬ s.Visited node)
    (seen : s'.Visited node) :
    (g.appearing \ s'.indices.keys).card < (g.appearing \ s.indices.keys).card :=
  Graph.card_sdiff_lt hn (fun m => unseen (Finmap.mem_keys.1 m)) (Finmap.mem_keys.2 seen)
    fun _ hx => Finmap.mem_keys.2 (h.visited (Finmap.mem_keys.1 hx))

end TarjanState

namespace Graph

open TarjanState

variable {W : Type} {g : Graph W}

/-- A call for a new node that all running nodes reach. -/
theorem strongconnect_spec (fuel node : ℕ) (gray : Set ℕ) (s : TarjanState) (valid : Valid g gray s)
    (unseen : ¬ s.Visited node) (known : node ∈ g.appearing)
    (path : ∀ x ∈ gray, ReflTransGen g.Edge x node)
    (enough : (g.appearing \ s.indices.keys).card < fuel) :
    ∃ s' new ll, g.strongconnect fuel node s = some s' ∧ Returned g gray s node s' new ll := by
  induction fuel generalizing node gray s with
  | zero => exact absurd enough (Nat.not_lt_zero _)
  | succ fuel ih =>
    obtain ⟨t, run, new, ll, running⟩ := foldlM_ensures
      (f := fun s edge => visit (strongconnect g fuel) node s edge.1) (l := g.neighbors node)
      (s := s.enter node) (P := fun done t => ∃ new ll, Running g gray s node t new ll (done.map Prod.fst))
      ⟨[], s.index, valid.running unseen known path⟩
      (by
        rintro before edge after split t ⟨new, ll, running⟩
        have step : g.Edge node edge.1 := List.mem_map.2 ⟨edge, by simp [split], rfl⟩
        have less := card_unvisited_lt running.ext known unseen running.node_visited
        obtain ⟨t', new', ll', run, running'⟩ := running.visit (strongconnect g fuel) step fun new =>
          ih edge.1 (insert node gray) t running.valid new (appearing_of_edge step)
            (by
              rintro x (rfl | hx)
              · exact .single step
              · exact (path x hx).tail step)
            (by omega)
        refine ⟨t', run, new', ll', ?_⟩
        rwa [List.map_append])
    obtain ⟨s', new', last, ret⟩ := running.leave
    refine ⟨s', new', ll, ?_, ret⟩
    rw [strongconnect, run]
    exact last

theorem valid_new : Valid g ∅ TarjanState.new where
  known _ hx := absurd hx (Finmap.notMem_empty)
  below _ hx := absurd hx (Finmap.notMem_empty)
  ordered := .nil
  stackVisited _ hx := absurd hx List.not_mem_nil
  onStack x := by simp [TarjanState.new]
  onPath _ hx := absurd hx (Set.notMem_empty _)
  black _ hx := absurd hx (Finmap.notMem_empty)
  closed _ hx := absurd hx (Finmap.notMem_empty)
  up _ hx := absurd hx (Set.notMem_empty _)
  down _ hx := absurd hx List.not_mem_nil
  classes := by
    have none : {x | TarjanState.new.Visited x ∧ x ∉ TarjanState.new.stack} = ∅ :=
      Set.eq_empty_of_forall_notMem fun x hx => absurd hx.1 Finmap.notMem_empty
    exact none ▸ sortedClasses_nil

/-- Between the calls for the nodes the stack is empty. -/
theorem stack_eq_nil {s : TarjanState} (h : Valid g ∅ s) : s.stack = [] := by
  refine List.eq_nil_iff_forall_not_mem.2 fun x hx => ?_
  obtain ⟨y, path, -⟩ := h.down x hx
  exact absurd path (Set.notMem_empty y)

/-- Tarjan's algorithm returns the classes of mutual reachability of all nodes. -/
theorem tarjanScc_spec (g : Graph W) :
    ∃ sccs, g.tarjanScc = some sccs ∧ SortedClasses g.Edge {x | x ∈ g.appearing} sccs := by
  obtain ⟨s, run, valid, done⟩ := foldlM_ensures
    (f := fun (s : TarjanState) node =>
      if (s.indices.lookup node).isNone then g.strongconnect g.searchDepth node s else some s)
    (l := g.nodes) (s := TarjanState.new)
    (P := fun done s => Valid g ∅ s ∧ ∀ x ∈ done, s.Visited x)
    ⟨valid_new, fun _ h => absurd h List.not_mem_nil⟩
    (by
      rintro before node after split s ⟨valid, done⟩
      split_ifs with unseen
      · have known : node ∈ g.appearing :=
          mem_appearing.2 (.inl (mem_nodes.1 (by simp [split])))
        obtain ⟨s', new, ll, run, ret⟩ := strongconnect_spec g.searchDepth node ∅ s valid (isNone_iff.1 unseen)
          known (fun x hx => absurd hx (Set.notMem_empty x))
          (Nat.lt_succ_of_le (Finset.card_le_card Finset.sdiff_subset))
        exact ⟨s', run, ret.valid, forall_mem_concat (fun x hx => ret.ext.visited (done x hx)) ret.visited⟩
      · have visited : s.Visited node := not_not.1 fun new => unseen (isNone_iff.2 new)
        exact ⟨s, rfl, valid, forall_mem_concat done visited⟩)
  refine ⟨s.sccs, by rw [tarjanScc, run]; rfl, ?_⟩
  have all : {x | s.Visited x ∧ x ∉ s.stack} = {x | x ∈ g.appearing} := by
    ext x
    constructor
    · exact fun hx => valid.known x hx.1
    · intro hx
      refine ⟨?_, by rw [stack_eq_nil valid]; exact List.not_mem_nil⟩
      rcases mem_appearing.1 hx with key | ⟨y, edge⟩
      · exact done x (mem_nodes.2 key)
      · have source := done y (mem_nodes.2 (mem_keys_of_edge edge))
        exact valid.black y source (Set.notMem_empty y) x edge
  exact all ▸ valid.classes

end Graph

end TORdex
