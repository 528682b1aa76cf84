import Mathlib.Algebra.Order.BigOperators.Group.List
import TORdex.Core.JsonText
import TORdex.Knowledge.Core

/-!
# Laws of canonical forms

The three rewrites rebuild a value from its members: the fields of an object go into a new map under their
rewritten keys, and the ones whose keys have become equal are lost.
-/

namespace TORdex

open SortedMap

namespace Json

/-- The property holds of the value, of its members, of their members, and so on. -/
inductive Everywhere (P : Json → Prop) : Json → Prop where
  | intro {v : Json} (here : P v) (inside : ∀ x ∈ v.members, Everywhere P x) : Everywhere P v

namespace Everywhere

variable {P Q : Json → Prop} {v : Json}

theorem here (h : Everywhere P v) : P v := by
  cases h with
  | intro here _ => exact here

theorem inside (h : Everywhere P v) : ∀ x ∈ v.members, Everywhere P x := by
  cases h with
  | intro _ inside => exact inside

theorem mono (imp : ∀ x, P x → Q x) (h : Everywhere P v) : Everywhere Q v := by
  induction h with
  | intro here _ ih => exact .intro (imp _ here) ih

end Everywhere

/-- A value without texts and members. -/
def isAtom : Json → Bool
  | .null | .bool _ | .int _ | .float _ => true
  | _ => false

/-- What makes a value one of `serde_json`: floats are shortest decimals, and a map has its keys in order. -/
def Proper : Json → Prop
  | .float d => d.Shortest
  | .obj fields => KeysSorted fields
  | _ => True

/-- A `serde_json::Value`. -/
abbrev IsValue (v : Json) : Prop := Everywhere Proper v

theorem shortest_of_isValue {v : Json} (h : v.IsValue) : v.Shortest := by
  induction v using member_induction with
  | h v ih =>
  have inside : ∀ x ∈ v.members, x.Shortest := fun x mem => ih x mem (h.inside x mem)
  cases v with
  | float d => exact h.here
  | arr items => exact shortest_arr_iff.2 inside
  | obj fields => exact shortest_obj_iff.2 fun f mem => inside f.2 (List.mem_map.2 ⟨f, mem, rfl⟩)
  | _ => trivial

/-- So much at a nesting level. -/
def countAt (own : Json → ℕ) : ℕ → Json → ℕ
  | 0, v => own v
  | n + 1, v => (v.members.map (countAt own n)).sum

/-- The number of fields of an object. -/
def fieldCount : Json → ℕ
  | .obj fields => fields.length
  | _ => 0

/-- The number of elements of an array. -/
def itemCount : Json → ℕ
  | .arr items => items.length
  | _ => 0

end Json

namespace KnowledgeBase

open Json

/-! ## Maps -/

section Maps

variable {l l' : List (String × Json)}

theorem toMap_concat (l : List (String × Json)) (e : String × Json) :
    toMap (l ++ [e]) = insertEntry e.1 e.2 (toMap l) :=
  List.foldl_concat _ _ _ _

theorem keysSorted_toMap (l : List (String × Json)) : KeysSorted (toMap l) := by
  induction l using List.reverseRecOn with
  | nil => exact List.Pairwise.nil
  | append_singleton l e ih =>
    rw [toMap_concat]
    exact keysSorted_insertEntry ih _ _

/-- The entries of a map go into a new map as they are. -/
theorem toMap_eq_self (sorted : KeysSorted l) : toMap l = l := by
  induction l using List.reverseRecOn with
  | nil => rfl
  | append_singleton l e ih =>
    obtain ⟨before, -, below⟩ := List.pairwise_append.1 sorted
    rw [toMap_concat, ih before, insertEntry_eq_concat _ fun e' mem => below e' mem e List.mem_cons_self]

theorem toMap_subperm (l : List (String × Json)) : (toMap l).Subperm l := by
  induction l using List.reverseRecOn with
  | nil => exact List.Subperm.refl _
  | append_singleton l e ih =>
    rw [toMap_concat]
    have step := (insertEntry_subperm e.1 e.2 (toMap l)).trans ((List.subperm_cons e).2 ih)
    exact step.trans (List.perm_append_singleton e l).symm.subperm

theorem toMap_perm (once : (l.map Prod.fst).Nodup) : (toMap l).Perm l := by
  induction l using List.reverseRecOn with
  | nil => exact .rfl
  | append_singleton l e ih =>
    rw [List.map_append, List.nodup_append] at once
    obtain ⟨before, -, apart⟩ := once
    have perm := ih before
    have absent : ∀ e' ∈ toMap l, e'.1 ≠ e.1 := fun e' mem =>
      apart _ (List.mem_map.2 ⟨e', perm.subset mem, rfl⟩) _ List.mem_cons_self
    rw [toMap_concat]
    exact ((insertEntry_perm e.2 absent).trans (perm.cons e)).trans (List.perm_append_singleton e l).symm

/-- A map that has as many entries as went in has them under different keys. -/
theorem nodup_of_length_toMap (length : (toMap l).length = l.length) : (l.map Prod.fst).Nodup := by
  induction l using List.reverseRecOn with
  | nil => exact List.nodup_nil
  | append_singleton l e ih =>
    rw [toMap_concat, List.length_append, List.length_singleton] at length
    have upper := (insertEntry_subperm e.1 e.2 (toMap l)).length_le
    have upper' := (toMap_subperm l).length_le
    rw [List.length_cons] at upper
    have before := ih (by omega)
    rw [List.map_append, List.nodup_append]
    refine ⟨before, List.nodup_singleton _, fun k mem k' mem' same => ?_⟩
    obtain ⟨e', inside, rfl⟩ := List.mem_map.1 mem
    obtain rfl := List.mem_singleton.1 mem'
    have shorter := length_insertEntry_of_mem e.2 (keysSorted_toMap l)
      ((toMap_perm before).symm.subset inside) same
    omega

theorem toMap_eq_of_perm (perm : l.Perm l') (once : (l.map Prod.fst).Nodup) : toMap l = toMap l' := by
  have perm' := (toMap_perm once).trans (perm.trans (toMap_perm ((perm.map Prod.fst).nodup_iff.1 once)).symm)
  refine perm'.eq_of_pairwise (fun a b _ _ lt gt => ?_) (keysSorted_toMap l) (keysSorted_toMap l')
  exact absurd lt gt.not_gt

end Maps

/-! ## Rebuilding a value -/

/-- The rewrite gives the keys and the texts of a value other ones, and puts the fields of an object into a
new map. -/
structure Rebuilds (f : Json → Json) (key text : String → String) : Prop where
  str : ∀ s, f (.str s) = .str (text s)
  arr : ∀ items, f (.arr items) = .arr (items.map f)
  obj : ∀ fields, f (.obj fields) = .obj (toMap (fields.map fun e => (key e.1, f e.2)))
  atom : ∀ v, v.isAtom → f v = v

theorem lowercaseFields_eq_map (toLowercase : String → String) (fields : List (String × Json)) :
    lowercaseFields toLowercase fields = fields.map fun e =>
      (toLowercase e.1, lowercase toLowercase e.2) := by
  induction fields with
  | nil => rfl
  | cons e fields ih => rw [lowercaseFields, ih, List.map_cons]

theorem lowercaseItems_eq_map (toLowercase : String → String) (items : List Json) :
    lowercaseItems toLowercase items = items.map (lowercase toLowercase) := by
  induction items with
  | nil => rfl
  | cons v items ih => rw [lowercaseItems, ih, List.map_cons]

theorem rebuilds_lowercase (toLowercase : String → String) :
    Rebuilds (lowercase toLowercase) toLowercase toLowercase where
  str s := by rw [lowercase]
  arr items := by rw [lowercase, lowercaseItems_eq_map]
  obj fields := by rw [lowercase, lowercaseFields_eq_map]
  atom v atom := by
    cases v with
    | str | arr | obj => cases atom
    | _ => simp [lowercase]

/-- The text without its white space. -/
def strip (s : String) : String := String.ofList (s.toList.filter fun c => !isWhiteSpace c)

theorem stripFields_eq_map (fields : List (String × Json)) :
    stripFields fields = fields.map fun e => (e.1, stripWhitespace e.2) := by
  induction fields with
  | nil => rfl
  | cons e fields ih => rw [stripFields, ih, List.map_cons]

theorem stripItems_eq_map (items : List Json) : stripItems items = items.map stripWhitespace := by
  induction items with
  | nil => rfl
  | cons v items ih => rw [stripItems, ih, List.map_cons]

theorem rebuilds_strip : Rebuilds stripWhitespace id strip where
  str s := by rw [stripWhitespace, strip]
  arr items := by rw [stripWhitespace, stripItems_eq_map]
  obj fields := by rw [stripWhitespace, stripFields_eq_map]; rfl
  atom v atom := by
    cases v with
    | str | arr | obj => cases atom
    | _ => simp [stripWhitespace]

theorem sortFields_eq_map (fields : List (String × Json)) :
    sortFields fields = fields.map fun e => (e.1, sortKeys e.2) := by
  induction fields with
  | nil => rfl
  | cons e fields ih => rw [sortFields, ih, List.map_cons]

theorem sortItems_eq_map (items : List Json) : sortItems items = items.map sortKeys := by
  induction items with
  | nil => rfl
  | cons v items ih => rw [sortItems, ih, List.map_cons]

/-- Sorting leaves a value as it is: its maps are in the order of their keys. -/
theorem sortKeys_eq_self {v : Json} (h : v.IsValue) : sortKeys v = v := by
  induction v using member_induction with
  | h v ih =>
  have inside : ∀ x ∈ v.members, sortKeys x = x := fun x mem => ih x mem (h.inside x mem)
  cases v with
  | arr items =>
    have same : items.map sortKeys = items.map id := List.map_congr_left inside
    rw [sortKeys, sortItems_eq_map, same, List.map_id]
  | obj fields =>
    have sorted : KeysSorted fields := h.here
    have same : ∀ e ∈ fields, (e.1, sortKeys e.2) = e := fun e mem => by
      rw [inside e.2 (List.mem_map.2 ⟨e, mem, rfl⟩)]
    have le : fields.Pairwise fun a b => decide (a.1 ≤ b.1) = true :=
      sorted.imp fun lt => decide_eq_true lt.le
    rw [sortKeys, sortFields_eq_map, List.map_congr_left same, List.map_id', List.mergeSort_of_pairwise le,
      toMap_eq_self sorted]
  | _ => simp [sortKeys]

namespace Rebuilds

variable {f : Json → Json} {key text : String → String} {v : Json}

theorem members_subperm (h : Rebuilds f key text) : (f v).members.Subperm (v.members.map f) := by
  cases v with
  | str s =>
    rw [h.str]
    exact .refl _
  | arr items =>
    rw [h.arr]
    exact .refl _
  | obj fields =>
    rw [h.obj]
    have values : (Json.obj fields).members.map f = (fields.map fun e => (key e.1, f e.2)).map Prod.snd := by
      simp only [members, List.map_map, Function.comp_def]
    rw [values]
    obtain ⟨l, perm, sub⟩ := toMap_subperm (fields.map fun e => (key e.1, f e.2))
    exact ⟨l.map Prod.snd, perm.map _, sub.map _⟩
  | _ =>
    rw [h.atom _ rfl]
    exact .refl _

theorem exists_of_mem_members (h : Rebuilds f key text) {x : Json} (mem : x ∈ (f v).members) :
    ∃ y ∈ v.members, f y = x :=
  List.mem_map.1 (h.members_subperm.subset mem)

theorem isValue (h : Rebuilds f key text) (value : v.IsValue) : (f v).IsValue := by
  induction value with
  | @intro v here _ ih =>
    refine .intro ?_ fun x mem => ?_
    · cases v with
      | str s =>
        rw [h.str]
        trivial
      | arr items =>
        rw [h.arr]
        trivial
      | obj fields =>
        rw [h.obj]
        exact keysSorted_toMap _
      | _ =>
        rw [h.atom _ rfl]
        exact here
    · obtain ⟨y, mem', rfl⟩ := h.exists_of_mem_members mem
      exact ih y mem'

end Rebuilds

/-- All keys and texts of the value are of some kind. -/
def Spelled (K T : String → Prop) : Json → Prop :=
  Everywhere fun v =>
    match v with
    | .str s => T s
    | .obj fields => ∀ e ∈ fields, K e.1
    | _ => True

namespace Rebuilds

variable {f : Json → Json} {key text : String → String} {v : Json} {K T K' T' : String → Prop}

theorem spelled (h : Rebuilds f key text) (keys : ∀ k, K k → K' (key k)) (texts : ∀ s, T s → T' (text s))
    (spelled : Spelled K T v) : Spelled K' T' (f v) := by
  induction spelled with
  | @intro v here _ ih =>
    refine .intro ?_ fun x mem => ?_
    · cases v with
      | str s =>
        rw [h.str]
        exact texts s here
      | arr items =>
        rw [h.arr]
        trivial
      | obj fields =>
        rw [h.obj]
        intro e mem
        obtain ⟨e', inside, rfl⟩ := List.mem_map.1 ((toMap_subperm _).subset mem)
        exact keys e'.1 (here e' inside)
      | _ =>
        rw [h.atom _ rfl]
        trivial
    · obtain ⟨y, mem', rfl⟩ := h.exists_of_mem_members mem
      exact ih y mem'

/-- A value whose keys and texts stay the same stays the same. -/
theorem eq_self (h : Rebuilds f key text) (value : v.IsValue)
    (spelled : Spelled (fun k => key k = k) (fun s => text s = s) v) : f v = v := by
  induction v using member_induction with
  | h v ih =>
  have inside : ∀ x ∈ v.members, f x = x := fun x mem => ih x mem (value.inside x mem) (spelled.inside x mem)
  cases v with
  | str s => rw [h.str, show text s = s from spelled.here]
  | arr items =>
    have same : items.map f = items.map id := List.map_congr_left inside
    rw [h.arr, same, List.map_id]
  | obj fields =>
    have keys : ∀ e ∈ fields, key e.1 = e.1 := spelled.here
    have same : ∀ e ∈ fields, (key e.1, f e.2) = e := fun e mem => by
      rw [keys e mem, inside e.2 (List.mem_map.2 ⟨e, mem, rfl⟩)]
    rw [h.obj, List.map_congr_left same, List.map_id', toMap_eq_self value.here]
  | _ => exact h.atom _ rfl

end Rebuilds

/-! ## Counting -/

/-- The keys of an object are rewritten to different ones. -/
def OwnKeysApart (key : String → String) : Json → Prop
  | .obj fields => (fields.map fun e => key e.1).Nodup
  | _ => True

/-- No object inside the value has two keys that are rewritten to the same one. -/
abbrev KeysApart (key : String → String) (v : Json) : Prop := Everywhere (OwnKeysApart key) v

theorem eq_of_sum_map_eq {α : Type*} {g g' : α → ℕ} {l : List α} (le : ∀ x ∈ l, g x ≤ g' x)
    (sum : (l.map g).sum = (l.map g').sum) : ∀ x ∈ l, g x = g' x := by
  induction l with
  | nil => simp
  | cons a l ih =>
    have first := le a List.mem_cons_self
    have rest : ∀ x ∈ l, g x ≤ g' x := fun x mem => le x (List.mem_cons_of_mem _ mem)
    have below := List.sum_le_sum rest
    rw [List.map_cons, List.map_cons, List.sum_cons, List.sum_cons] at sum
    rw [List.forall_mem_cons]
    exact ⟨by omega, ih rest (by omega)⟩

namespace Rebuilds

variable {f : Json → Json} {key text : String → String} {v : Json} {own : Json → ℕ}

theorem fieldCount_le (h : Rebuilds f key text) (v : Json) : fieldCount (f v) ≤ fieldCount v := by
  cases v with
  | str s => exact (congrArg fieldCount (h.str s)).le
  | arr items => exact (congrArg fieldCount (h.arr items)).le
  | obj fields =>
    rw [h.obj]
    exact (toMap_subperm _).length_le.trans (List.length_map _).le
  | _ => rw [h.atom _ rfl]

theorem itemCount_eq (h : Rebuilds f key text) (v : Json) : itemCount (f v) = itemCount v := by
  cases v with
  | str s => rw [h.str]; rfl
  | arr items =>
    rw [h.arr]
    exact List.length_map _
  | obj fields => rw [h.obj]; rfl
  | _ => rw [h.atom _ rfl]

theorem members_perm (h : Rebuilds f key text) (apart : OwnKeysApart key v) :
    (f v).members.Perm (v.members.map f) := by
  refine h.members_subperm.perm_of_length_le ?_
  cases v with
  | str s => exact (Nat.zero_le _)
  | arr items =>
    rw [h.arr]
    rfl
  | obj fields =>
    have once : ((fields.map fun e => (key e.1, f e.2)).map Prod.fst).Nodup := by
      rw [List.map_map]
      exact apart
    rw [h.obj]
    simp only [members, List.length_map, (toMap_perm once).length_eq, le_rfl]
  | _ => exact Nat.zero_le _

/-- No level has more than before. -/
theorem countAt_le (h : Rebuilds f key text) (le : ∀ v, own (f v) ≤ own v) (n : ℕ) (v : Json) :
    countAt own n (f v) ≤ countAt own n v := by
  induction n generalizing v with
  | zero => exact le v
  | succ n ih =>
    obtain ⟨l, perm, sub⟩ := h.members_subperm (v := v)
    calc ((f v).members.map (countAt own n)).sum
        = (l.map (countAt own n)).sum := ((perm.map _).sum_eq).symm
      _ ≤ ((v.members.map f).map (countAt own n)).sum :=
          (sub.map _).sum_le_sum fun _ _ => Nat.zero_le _
      _ = (v.members.map fun x => countAt own n (f x)).sum := by rw [List.map_map]; rfl
      _ ≤ (v.members.map (countAt own n)).sum := List.sum_le_sum fun x _ => ih x

/-- Where no keys become equal, every level has as much as before. -/
theorem countAt_eq (h : Rebuilds f key text) (same : ∀ v, OwnKeysApart key v → own (f v) = own v)
    (n : ℕ)
    (apart : KeysApart key v) : countAt own n (f v) = countAt own n v := by
  induction n generalizing v with
  | zero => exact same v apart.here
  | succ n ih =>
    have each : ∀ x ∈ v.members, countAt own n (f x) = countAt own n x := fun x mem => ih (apart.inside x mem)
    have perm := ((h.members_perm apart.here).map (countAt own n)).sum_eq
    rw [List.map_map] at perm
    exact perm.trans (congrArg List.sum (List.map_congr_left each))

theorem fieldCount_eq (h : Rebuilds f key text) (v : Json) (apart : OwnKeysApart key v) :
    fieldCount (f v) = fieldCount v := by
  cases v with
  | obj fields =>
    have members := (h.members_perm apart).length_eq
    rw [h.obj, List.length_map] at members
    rw [h.obj]
    simpa only [Json.members, List.length_map, fieldCount] using members
  | str s => rw [h.str]; rfl
  | arr items => rw [h.arr]; rfl
  | _ => rw [h.atom _ rfl]

/-- Where every level has as many fields as before, no keys have become equal. -/
theorem keysApart_of_countAt (h : Rebuilds f key text)
    (same : ∀ n, countAt fieldCount n (f v) = countAt fieldCount n v) : KeysApart key v := by
  induction v using member_induction with
  | h v ih =>
  have here : OwnKeysApart key v := by
    cases v with
    | obj fields =>
      have length := same 0
      rw [h.obj] at length
      have once := nodup_of_length_toMap (length.trans (List.length_map _).symm)
      rwa [List.map_map] at once
    | _ => trivial
  refine .intro here fun x mem => ih x mem fun n => ?_
  have sum := ((h.members_perm here).map (countAt fieldCount n)).sum_eq.symm.trans (same (n + 1))
  rw [List.map_map] at sum
  exact eq_of_sum_map_eq (fun x _ => h.countAt_le h.fieldCount_le n x) sum x mem

end Rebuilds

/-! ## The order of the fields -/

mutual

/-- The value of a JSON tree: the fields of an object go into a map, in the order in which they come. -/
def build : Json → Json
  | .obj fields => .obj (toMap (buildFields fields))
  | .arr items => .arr (buildItems items)
  | other => other

/-- The same for all fields. -/
def buildFields : List (String × Json) → List (String × Json)
  | [] => []
  | (k, v) :: fields => (k, build v) :: buildFields fields

/-- The same for all items. -/
def buildItems : List Json → List Json
  | [] => []
  | v :: items => build v :: buildItems items

end

theorem buildFields_eq_map (fields : List (String × Json)) :
    buildFields fields = fields.map fun e => (e.1, build e.2) := by
  induction fields with
  | nil => rfl
  | cons e fields ih => rw [buildFields, ih, List.map_cons]

theorem buildItems_eq_map (items : List Json) : buildItems items = items.map build := by
  induction items with
  | nil => rfl
  | cons v items ih => rw [buildItems, ih, List.map_cons]

/-- The trees differ only in the order in which objects list their keys, each key once. -/
inductive Reordered : Json → Json → Prop where
  | refl (v : Json) : Reordered v v
  | trans {u v w : Json} (first : Reordered u v) (second : Reordered v w) : Reordered u w
  | fields {fields fields' : List (String × Json)} (perm : fields.Perm fields')
      (once : (fields.map Prod.fst).Nodup) : Reordered (.obj fields) (.obj fields')
  | inField (before after : List (String × Json)) (k : String) {v w : Json} (h : Reordered v w) :
      Reordered (.obj (before ++ (k, v) :: after)) (.obj (before ++ (k, w) :: after))
  | inItem (before after : List Json) {v w : Json} (h : Reordered v w) :
      Reordered (.arr (before ++ v :: after)) (.arr (before ++ w :: after))

/-- They have the same value. -/
theorem Reordered.build_eq {v w : Json} (h : Reordered v w) : build v = build w := by
  induction h with
  | refl => rfl
  | trans _ _ first second => exact first.trans second
  | fields perm once =>
    rw [build, build, buildFields_eq_map, buildFields_eq_map]
    refine congrArg Json.obj (toMap_eq_of_perm (perm.map _) ?_)
    rwa [List.map_map]
  | inField before after k _ ih =>
    rw [build, build, buildFields_eq_map, buildFields_eq_map, List.map_append, List.map_append, List.map_cons,
      List.map_cons, ih]
  | inItem before after _ ih =>
    rw [build, build, buildItems_eq_map, buildItems_eq_map, List.map_append, List.map_append, List.map_cons,
      List.map_cons, ih]

/-! ## The canonical value -/

/-- `str::to_lowercase` gives lower-case characters, and leaves a text of such characters as it is. -/
structure LowercaseLaws (toLowercase : String → String) : Prop where
  lower : ∀ s, ∀ c ∈ (toLowercase s).toList, toLowercase (String.singleton c) = String.singleton c
  fixed : ∀ s, (∀ c ∈ s.toList, toLowercase (String.singleton c) = String.singleton c) → toLowercase s = s

/-- The value that is rendered. -/
def canonicalValue (c : Canonicalizer) (toLowercase : String → String) (value : Json) : Json :=
  match c.strategy with
  | .sortedKeys => sortKeys value
  | .lowercase => lowercase toLowercase value
  | .stripWhitespace => stripWhitespace value
  | .full => stripWhitespace (lowercase toLowercase (sortKeys value))

theorem normalized_eq (c : Canonicalizer) (toLowercase : String → String) (v : Json) :
    (c.canonicalize toLowercase v).normalized = (canonicalValue c toLowercase v).render := rfl

theorem Spelled.mono {K T K' T' : String → Prop} {v : Json} (h : Spelled K T v) (keys : ∀ k, K k → K' k)
    (texts : ∀ s, T s → T' s) : Spelled K' T' v := by
  refine Everywhere.mono (fun x here => ?_) h
  cases x with
  | str s => exact texts s here
  | obj fields => exact fun e mem => keys e.1 (here e mem)
  | _ => trivial

theorem spelled_true (v : Json) : Spelled (fun _ => True) (fun _ => True) v := by
  induction v using member_induction with
  | h v ih =>
  refine .intro ?_ ih
  cases v with
  | obj fields => exact fun _ _ => trivial
  | _ => trivial

theorem strip_strip (s : String) : strip (strip s) = strip s := by
  rw [strip, strip, String.toList_ofList, List.filter_filter]
  simp

section Laws

variable {toLowercase : String → String}

/-- The text consists of lower-case characters. -/
def LowerText (toLowercase : String → String) (s : String) : Prop :=
  ∀ c ∈ s.toList, toLowercase (String.singleton c) = String.singleton c

theorem lowerText_strip {s : String} (h : LowerText toLowercase s) : LowerText toLowercase (strip s) := by
  intro c mem
  rw [strip, String.toList_ofList] at mem
  exact h c (List.mem_filter.1 mem).1

theorem spelled_lowercase (laws : LowercaseLaws toLowercase) (v : Json) :
    Spelled (LowerText toLowercase) (LowerText toLowercase) (lowercase toLowercase v) :=
  (rebuilds_lowercase toLowercase).spelled (fun k _ => laws.lower k) (fun s _ => laws.lower s)
    (spelled_true v)

theorem lowercase_eq_self (laws : LowercaseLaws toLowercase) {v : Json} (value : v.IsValue)
    (spelled : Spelled (LowerText toLowercase) (LowerText toLowercase) v) : lowercase toLowercase v = v :=
  (rebuilds_lowercase toLowercase).eq_self value (spelled.mono laws.fixed laws.fixed)

theorem strip_eq_self {v : Json} (value : v.IsValue) :
    stripWhitespace (stripWhitespace v) = stripWhitespace v :=
  rebuilds_strip.eq_self (rebuilds_strip.isValue value)
    (rebuilds_strip.spelled (K := fun _ => True) (T := fun _ => True) (fun _ _ => rfl)
      (fun s _ => strip_strip s)
      (spelled_true v))

theorem isValue_canonicalValue (c : Canonicalizer) {v : Json} (value : v.IsValue) :
    (canonicalValue c toLowercase v).IsValue := by
  have lower := rebuilds_lowercase toLowercase
  unfold canonicalValue
  cases c.strategy with
  | sortedKeys => rwa [sortKeys_eq_self value]
  | lowercase => exact lower.isValue value
  | stripWhitespace => exact rebuilds_strip.isValue value
  | full =>
    rw [sortKeys_eq_self value]
    exact rebuilds_strip.isValue (lower.isValue value)

theorem canonicalValue_idem (laws : LowercaseLaws toLowercase) (c : Canonicalizer) {v : Json}
    (value : v.IsValue) :
    canonicalValue c toLowercase (canonicalValue c toLowercase v) = canonicalValue c toLowercase v := by
  have again : (canonicalValue c toLowercase v).IsValue := isValue_canonicalValue c value
  have lower := (rebuilds_lowercase toLowercase).isValue value
  obtain ⟨strategy⟩ := c
  cases strategy with
  | sortedKeys => exact sortKeys_eq_self again
  | lowercase => exact lowercase_eq_self laws again (spelled_lowercase laws v)
  | stripWhitespace => exact strip_eq_self value
  | full =>
    -- stripping keeps the lower case, so that neither rewrite finds anything to do
    have spelled : Spelled (LowerText toLowercase) (LowerText toLowercase)
        (stripWhitespace (lowercase toLowercase v)) :=
      rebuilds_strip.spelled (fun k h => h) (fun s h => lowerText_strip h) (spelled_lowercase laws v)
    have whole : canonicalValue ⟨.full⟩ toLowercase v = stripWhitespace (lowercase toLowercase v) := by
      rw [canonicalValue, sortKeys_eq_self value]
    rw [whole] at again ⊢
    rw [canonicalValue, sortKeys_eq_self again, lowercase_eq_self laws again spelled, strip_eq_self lower]

/-! ## The laws -/

/-- What canonicalization of a value is to respect: its result is canonical, the order of the fields plays no
part, and no level loses fields or elements. -/
structure CanonicalLaws (toLowercase : String → String) (parse : String → Option Json) (c : Canonicalizer)
    (v : Json) : Prop where
  idempotent : ∃ w, parse (c.canonicalize toLowercase v).normalized = some w ∧
    (c.canonicalize toLowercase w).normalized = (c.canonicalize toLowercase v).normalized
  ordered : ∀ t t', build t = v → Reordered t t' →
    (c.canonicalize toLowercase (build t')).normalized = (c.canonicalize toLowercase v).normalized
  kept : ∀ w, parse (c.canonicalize toLowercase v).normalized = some w → ∀ n,
    countAt fieldCount n w = countAt fieldCount n v ∧ countAt itemCount n w = countAt itemCount n v

theorem keysApart_id {v : Json} (value : v.IsValue) : KeysApart id v := by
  refine value.mono fun x here => ?_
  cases x with
  | obj fields =>
    have sorted : KeysSorted fields := here
    exact List.pairwise_map.2 (List.Pairwise.imp (fun lt => lt.ne) sorted)
  | _ => trivial

/-- The levels of the canonical value are those of the value that lower-casing gives, or of the value as it
is. -/
theorem countAt_canonicalValue (c : Canonicalizer) {v : Json} (value : v.IsValue) (n : ℕ) :
    (c.strategy = .sortedKeys ∨ c.strategy = .stripWhitespace) ∧
        (countAt fieldCount n (canonicalValue c toLowercase v) = countAt fieldCount n v ∧
          countAt itemCount n (canonicalValue c toLowercase v) = countAt itemCount n v) ∨
      (c.strategy = .lowercase ∨ c.strategy = .full) ∧
        (countAt fieldCount n (canonicalValue c toLowercase v) =
            countAt fieldCount n (lowercase toLowercase v) ∧
          countAt itemCount n (canonicalValue c toLowercase v) =
            countAt itemCount n (lowercase toLowercase v)) := by
  have stripped : ∀ {x : Json}, x.IsValue →
      countAt fieldCount n (stripWhitespace x) = countAt fieldCount n x ∧
        countAt itemCount n (stripWhitespace x) = countAt itemCount n x := fun x =>
    ⟨rebuilds_strip.countAt_eq rebuilds_strip.fieldCount_eq n (keysApart_id x),
      rebuilds_strip.countAt_eq (fun v _ => rebuilds_strip.itemCount_eq v) n (keysApart_id x)⟩
  obtain ⟨strategy⟩ := c
  cases strategy with
  | sortedKeys =>
    refine .inl ⟨.inl rfl, ?_⟩
    rw [canonicalValue, sortKeys_eq_self value]
    exact ⟨rfl, rfl⟩
  | lowercase => exact .inr ⟨.inl rfl, rfl, rfl⟩
  | stripWhitespace => exact .inl ⟨.inr rfl, stripped value⟩
  | full =>
    refine .inr ⟨.inr rfl, ?_⟩
    rw [canonicalValue, sortKeys_eq_self value]
    exact stripped ((rebuilds_lowercase toLowercase).isValue value)

/-- The laws hold of a value exactly when the strategy leaves the keys alone, or no two keys of an object in
it have the same lower case. -/
theorem canonicalLaws_iff (laws : LowercaseLaws toLowercase) (parse : String → Option Json) (c : Canonicalizer)
    (v : Json) (value : v.IsValue)
    (parsed : parse (c.canonicalize toLowercase v).normalized = some (canonicalValue c toLowercase v)) :
    CanonicalLaws toLowercase parse c v ↔
      c.strategy = .sortedKeys ∨ c.strategy = .stripWhitespace ∨ KeysApart toLowercase v := by
  have lower := rebuilds_lowercase toLowercase
  constructor
  · rintro ⟨-, -, kept⟩
    have levels := kept _ parsed
    by_cases plain : c.strategy = .sortedKeys ∨ c.strategy = .stripWhitespace
    · exact plain.imp id .inl
    · refine .inr (.inr (lower.keysApart_of_countAt fun n => ?_))
      rcases @countAt_canonicalValue toLowercase c _ value n with ⟨other, -⟩ | ⟨-, same, -⟩
      · exact absurd other plain
      · rw [← same, (levels n).1]
  · intro apart
    refine ⟨⟨_, parsed, ?_⟩, ?_, ?_⟩
    · rw [normalized_eq, normalized_eq, canonicalValue_idem laws c value]
    · rintro t t' rfl reordered
      rw [reordered.build_eq]
    · intro w found n
      obtain rfl := Option.some.inj (parsed.symm.trans found)
      rcases @countAt_canonicalValue toLowercase c _ value n with ⟨-, same⟩ | ⟨other, same⟩
      · exact same
      · have keys : KeysApart toLowercase v := by
          rcases apart with plain | plain | keys
          · rcases other with other | other <;> rw [plain] at other <;> cases other
          · rcases other with other | other <;> rw [plain] at other <;> cases other
          · exact keys
        rw [same.1, same.2, lower.countAt_eq lower.fieldCount_eq n keys,
          lower.countAt_eq (fun v _ => lower.itemCount_eq v) n keys]
        exact ⟨rfl, rfl⟩

end Laws

/-! ## An ASCII lower case, and reading back -/

theorem asciiLowercase_singleton_iff {c : Char} :
    asciiLowercase (String.singleton c) = String.singleton c ↔ c.toLower = c := by
  rw [← String.toList_inj, asciiLowercase, String.toList_ofList, String.toList_singleton]
  simp

/-- Only an upper-case letter has another lower case. -/
theorem toLower_of_not_upper {c : Char} (other : ¬(c.val ≥ 'A'.val ∧ c.val ≤ 'Z'.val)) : c.toLower = c :=
  dif_neg other

theorem toLower_toLower (c : Char) : c.toLower.toLower = c.toLower := by
  by_cases upper : c.val ≥ 'A'.val ∧ c.val ≤ 'Z'.val
  · have lower : c.toLower = _ := dif_pos upper
    have low : 65 ≤ c.val.toNat := upper.1
    have high : c.val.toNat ≤ 90 := upper.2
    have value : c.toLower.val.toNat = c.val.toNat + 32 := by
      rw [lower]
      show (c.val + ('a'.val - 'A'.val)).toNat = _
      rw [UInt32.toNat_add]
      show (c.val.toNat + 32) % 2 ^ 32 = _
      omega
    have above : ¬(c.toLower.val ≥ 'A'.val ∧ c.toLower.val ≤ 'Z'.val) := by
      rintro ⟨-, le⟩
      have le' : c.toLower.val.toNat ≤ 90 := le
      omega
    exact toLower_of_not_upper above
  · rw [toLower_of_not_upper upper, toLower_of_not_upper upper]

theorem asciiLowercase_laws : LowercaseLaws asciiLowercase where
  lower s c mem := by
    rw [asciiLowercase, String.toList_ofList] at mem
    obtain ⟨c', -, rfl⟩ := List.mem_map.1 mem
    exact asciiLowercase_singleton_iff.2 (toLower_toLower c')
  fixed s own := by
    have same : ∀ c ∈ s.toList, c.toLower = id c := fun c mem => asciiLowercase_singleton_iff.1 (own c mem)
    rw [asciiLowercase, List.map_congr_left same, List.map_id, String.ofList_toList]

open Classical in
/-- The value with this text. -/
noncomputable def readBack (text : String) : Option Json :=
  if h : ∃ v : Json, v.IsValue ∧ v.render = text then some h.choose else none

theorem readBack_render (v : Json) (value : v.IsValue) : readBack v.render = some v := by
  have h : ∃ w : Json, w.IsValue ∧ w.render = v.render := ⟨v, value, rfl⟩
  rw [readBack, dif_pos h]
  obtain ⟨value', same⟩ := h.choose_spec
  have texts : text renderDecimal h.choose ++ [] = text renderDecimal v ++ [] := congrArg (·.toList ++ []) same
  have ends : Delimiters.Leaves numeric [] := fun c mem => by cases mem
  rw [(text_append_inj writesFloats_renderDecimal (shortest_of_isValue value') (shortest_of_isValue value)
    (fun _ => ⟨ends, ends⟩) texts).1]

/-- A content with one field. -/
def sampleContent : Json := .obj [("a", .str "Hello World")]

theorem isValue_sampleContent : sampleContent.IsValue := by
  refine .intro (List.pairwise_singleton _ _) fun x mem => ?_
  obtain rfl : x = .str "Hello World" := List.mem_singleton.1 mem
  exact .intro trivial fun y mem => by cases mem

theorem canonicalLaws_sample :
    CanonicalLaws asciiLowercase readBack ⟨.full⟩ sampleContent ↔
      Normalization.full = .sortedKeys ∨ Normalization.full = .stripWhitespace ∨
        KeysApart asciiLowercase sampleContent :=
  canonicalLaws_iff asciiLowercase_laws readBack ⟨.full⟩ sampleContent isValue_sampleContent
    (readBack_render _ (isValue_canonicalValue ⟨.full⟩ isValue_sampleContent))

/-- Two fields whose keys differ by their case. -/
def clashingContent : Json := .obj [("A", .int 1), ("a", .int 2)]

/-- Two keys that differ by their case: one of the two fields is lost. -/
theorem canonicalLaws_clash :
    clashingContent.IsValue ∧ ¬CanonicalLaws asciiLowercase readBack ⟨.lowercase⟩ clashingContent := by
  have value : clashingContent.IsValue := by
    have keys : KeysSorted [("A", Json.int 1), ("a", Json.int 2)] :=
      List.pairwise_pair.2 (show "A" < "a" by decide)
    refine .intro keys fun x mem => ?_
    have atom : x = .int 1 ∨ x = .int 2 := by simpa [clashingContent, members] using mem
    rcases atom with rfl | rfl
    · exact .intro trivial fun y mem => by cases mem
    · exact .intro trivial fun y mem => by cases mem
  refine ⟨value, fun laws => ?_⟩
  have parsed := readBack_render _ (@isValue_canonicalValue asciiLowercase ⟨.lowercase⟩ _ value)
  have fields := (laws.kept _ parsed 0).1
  exact absurd fields (by decide)

end KnowledgeBase

end TORdex
