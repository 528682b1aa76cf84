import TORdex.Kernel.PgObjectManager

/-!
# The two object managers side by side

Both take the same calls and draw the same ids.  As long as no object is deleted that still has links,
no link is made to an absent object and all texts are storable, they hold the same objects and links
and every link has its two objects; the first step that breaks this shows.
-/

namespace TORdex

/-- A call with the clock readings of the two managers. -/
structure ObjectStep where
  call : ObjectCall
  memNow : ℤ
  pgNow : ℤ

/-- A call that changes nothing. -/
def ObjectCall.IsQuery : ObjectCall → Prop
  | .read _ | .links _ | .findByKind _ | .findByLabel _ => True
  | _ => False

/-- The ids drawn for objects. -/
def drawnObjects (steps : List ObjectStep) : List ObjectId :=
  steps.filterMap fun s =>
    match s.call with
    | .create id .. => some id
    | _ => none

/-- The ids drawn for links. -/
def drawnLinks (steps : List ObjectStep) : List LinkId :=
  steps.filterMap fun s =>
    match s.call with
    | .link id .. => some id
    | _ => none

section Agreement

variable (minted : String → Ulid)

/-- Every query answers the same, and every link that is listed has both endpoints. -/
structure InStep (mem : InMemoryObjectManager) (pg : PgObjectManager) : Prop where
  queries : ∀ call : ObjectCall, call.IsQuery → ∀ memNow pgNow,
    (mem.perform memNow call).1.Same (pg.perform minted pgNow call).1
  memLinks : ∀ object, ∀ l ∈ mem.linksOf object,
    (mem.read l.sourceId).isSome ∧ (mem.read l.targetId).isSome
  pgLinks : ∀ object, ∀ l ∈ pg.linksOf minted object,
    (pg.read minted l.sourceId).isSome ∧ (pg.read minted l.targetId).isSome

/-- Every call of the run answers the same, and leaves the managers in step. -/
def AgreeAll : InMemoryObjectManager → PgObjectManager → List ObjectStep → Prop
  | _, _, [] => True
  | mem, pg, s :: steps =>
    (mem.perform s.memNow s.call).1.Same (pg.perform minted s.pgNow s.call).1 ∧
      InStep minted (mem.perform s.memNow s.call).2 (pg.perform minted s.pgNow s.call).2 ∧
      AgreeAll (mem.perform s.memNow s.call).2 (pg.perform minted s.pgNow s.call).2 steps

/-- The call stores texts, links objects and deletes an object without links. -/
def InMemoryObjectManager.Meets (mem : InMemoryObjectManager) : ObjectCall → Prop
  | .create _ kind label _ => IsText kind ∧ IsText label
  | .link _ source target kind =>
    IsText kind ∧ (mem.read source).isSome ∧ (mem.read target).isSome
  | .delete id => mem.linksOf id = 0
  | _ => True

/-- Each call of the run meets the condition in the state before it. -/
def InMemoryObjectManager.MeetsAll : InMemoryObjectManager → List ObjectStep → Prop
  | _, [] => True
  | mem, s :: steps => mem.Meets s.call ∧ (mem.perform s.memNow s.call).2.MeetsAll steps

/-- The two managers hold the same, and the links have their objects. -/
structure Paired (mem : InMemoryObjectManager) (pg : PgObjectManager) : Prop where
  objects : ∀ id : ObjectId, (mem.objects.lookup id).map Object.content =
    (pg.objects.lookup id.toString).map fun row => (rowToObject minted row).content
  objectKeys : ∀ key row, pg.objects.lookup key = some row →
    (∃ id : ObjectId, key = id.toString ∧ row.id = key) ∧ IsText row.kind ∧ IsText row.label
  links : ∀ id : LinkId, (mem.links.lookup id).map Link.content =
    (pg.links.lookup id.toString).map fun row => (rowToLink minted row).content
  linkKeys : ∀ key row, pg.links.lookup key = some row →
    (∃ id : LinkId, key = id.toString ∧ row.id = key) ∧
      (∃ source : ObjectId, row.sourceId = source.toString) ∧
      ∃ target : ObjectId, row.targetId = target.toString
  live : ∀ id l, mem.links.lookup id = some l →
    (mem.objects.lookup l.sourceId).isSome ∧ (mem.objects.lookup l.targetId).isSome

variable {minted} {mem : InMemoryObjectManager} {pg : PgObjectManager}

theorem mem_linksOf {object : ObjectId} {l : Link} : l ∈ mem.linksOf object ↔
    (∃ id, mem.links.lookup id = some l) ∧ (l.sourceId = object ∨ l.targetId = object) := by
  rw [InMemoryObjectManager.linksOf, Multiset.mem_filter, FiniteMap.mem_values]

theorem mem_linksOf_pg {object : ObjectId} {l : Link} : l ∈ pg.linksOf minted object ↔
    ∃ key row, pg.links.lookup key = some row ∧
      (row.sourceId = object.toString ∨ row.targetId = object.toString) ∧
      rowToLink minted row = l := by
  simp only [PgObjectManager.linksOf, Multiset.mem_map, Multiset.mem_filter, FiniteMap.mem_values]
  exact ⟨fun ⟨row, ⟨⟨key, h⟩, ends⟩, same⟩ => ⟨key, row, h, ends, same⟩,
    fun ⟨key, row, h, ends, same⟩ => ⟨row, ⟨⟨key, h⟩, ends⟩, same⟩⟩

theorem read_toString (u : Ulid) (text : String) (h : text = u.toString) :
    (Ulid.fromString text).getD (minted text) = u := by
  rw [h, Ulid.fromString_toString, Option.getD_some]

namespace Paired

theorem agreeObjects (paired : Paired minted mem pg) : FiniteMap.Agree Ulid.toString Object.content
    (fun row => (rowToObject minted row).content) mem.objects pg.objects := paired.objects

theorem agreeLinks (paired : Paired minted mem pg) : FiniteMap.Agree Ulid.toString Link.content
    (fun row => (rowToLink minted row).content) mem.links pg.links := paired.links

/-- An object is in both managers or in neither. -/
theorem isSome_objects (paired : Paired minted mem pg) (id : ObjectId) :
    (pg.objects.lookup id.toString).isSome = (mem.objects.lookup id).isSome :=
  paired.agreeObjects.isSome id

theorem isSome_links (paired : Paired minted mem pg) (id : LinkId) :
    (pg.links.lookup id.toString).isSome = (mem.links.lookup id).isSome :=
  paired.agreeLinks.isSome id

/-- A row has a link with the same content. -/
theorem link_of_row (paired : Paired minted mem pg) {key : String} {row : PgLinkRow}
    (h : pg.links.lookup key = some row) : ∃ id l, key = id.toString ∧
      mem.links.lookup id = some l ∧ l.content = (rowToLink minted row).content ∧
      row.sourceId = l.sourceId.toString ∧ row.targetId = l.targetId.toString := by
  obtain ⟨⟨id, rfl, -⟩, ⟨source, hs⟩, target, ht⟩ := paired.linkKeys key row h
  have same := paired.links id
  rw [h, Option.map_some, Option.map_eq_some_iff] at same
  obtain ⟨l, hl, content⟩ := same
  have fields := content
  simp only [Link.content, rowToLink, Prod.mk.injEq] at fields
  refine ⟨id, l, rfl, hl, content, ?_, ?_⟩
  · rw [fields.2.1, read_toString source _ hs, hs]
  · rw [fields.2.2.1, read_toString target _ ht, ht]

theorem row_of_link (paired : Paired minted mem pg) {id : LinkId} {l : Link}
    (h : mem.links.lookup id = some l) : ∃ row, pg.links.lookup id.toString = some row ∧
      l.content = (rowToLink minted row).content ∧
      row.sourceId = l.sourceId.toString ∧ row.targetId = l.targetId.toString := by
  have found : (pg.links.lookup id.toString).isSome := by rw [paired.isSome_links, h]; rfl
  obtain ⟨row, hrow⟩ := Option.isSome_iff_exists.1 found
  obtain ⟨id', l', hid, hl', rest⟩ := paired.link_of_row hrow
  rw [← Ulid.toString_injective hid, h, Option.some.injEq] at hl'
  exact ⟨row, hrow, hl' ▸ rest⟩

/-- A search by a condition on the content finds the same in both. -/
theorem find_same (paired : Paired minted mem pg) {p : Object → Prop} {q : PgObjectRow → Prop}
    [DecidablePred p] [DecidablePred q]
    (h : ∀ o row, o.content = (rowToObject minted row).content → (p o ↔ q row))
    (c : ObjectId × String × String × List UInt8) :
    c ∈ ((FiniteMap.values mem.objects).filter p).map Object.content ↔
      c ∈ (((FiniteMap.values pg.objects).filter q).map (rowToObject minted)).map Object.content := by
  simp only [Multiset.mem_map, Multiset.mem_filter, FiniteMap.mem_values]
  constructor
  · rintro ⟨o, ⟨⟨id, ho⟩, hp⟩, rfl⟩
    have same := paired.objects id
    rw [ho, Option.map_some, eq_comm, Option.map_eq_some_iff] at same
    obtain ⟨row, hrow, content⟩ := same
    exact ⟨_, ⟨row, ⟨⟨_, hrow⟩, (h o row content.symm).1 hp⟩, rfl⟩, content⟩
  · rintro ⟨_, ⟨row, ⟨⟨key, hrow⟩, hq⟩, rfl⟩, rfl⟩
    obtain ⟨⟨id, rfl, -⟩, -⟩ := paired.objectKeys key row hrow
    have same := paired.objects id
    rw [hrow, Option.map_some, Option.map_eq_some_iff] at same
    obtain ⟨o, ho, content⟩ := same
    exact ⟨o, ⟨⟨id, ho⟩, (h o row content).2 hq⟩, content⟩

/-- The database is not asked for a text that it cannot store. -/
theorem find_text (paired : Paired minted mem pg) {p : Object → Prop} {q : PgObjectRow → Prop}
    [DecidablePred p] [DecidablePred q] {text : String}
    (h : ∀ o row, o.content = (rowToObject minted row).content → (p o ↔ q row))
    (storable : ∀ key row, pg.objects.lookup key = some row → q row → IsText text)
    (c : ObjectId × String × String × List UInt8) :
    c ∈ ((FiniteMap.values mem.objects).filter p).map Object.content ↔
      c ∈ (if IsText text then ((FiniteMap.values pg.objects).filter q).map (rowToObject minted)
        else 0).map Object.content := by
  have found := paired.find_same h c
  split_ifs with ok
  · exact found
  · rw [found]
    refine iff_of_false (fun h => ?_) (by simp)
    simp only [Multiset.mem_map, Multiset.mem_filter, FiniteMap.mem_values] at h
    obtain ⟨-, ⟨row, ⟨⟨key, hrow⟩, hq⟩, -⟩, -⟩ := h
    exact ok (storable key row hrow hq)

theorem findByKind_same (paired : Paired minted mem pg) (kind : String)
    (c : ObjectId × String × String × List UInt8) :
    c ∈ (mem.findByKind kind).map Object.content ↔
      c ∈ (pg.findByKind minted kind).map Object.content := by
  refine paired.find_text (p := (·.kind = kind)) (q := (·.kind = kind)) (fun o row same => ?_)
    (fun key row hrow eq => ?_) c
  · rw [show o.kind = row.kind from congrArg (·.2.1) same]
  · exact eq ▸ (paired.objectKeys key row hrow).2.1

theorem findByLabel_same (paired : Paired minted mem pg) (label : String)
    (c : ObjectId × String × String × List UInt8) :
    c ∈ (mem.findByLabel label).map Object.content ↔
      c ∈ (pg.findByLabel minted label).map Object.content := by
  refine paired.find_text (p := (·.label = label)) (q := (·.label = label)) (fun o row same => ?_)
    (fun key row hrow eq => ?_) c
  · rw [show o.label = row.label from congrArg (·.2.2.1) same]
  · exact eq ▸ (paired.objectKeys key row hrow).2.2

theorem linksOf_same (paired : Paired minted mem pg) (object : ObjectId)
    (c : LinkId × ObjectId × ObjectId × String) :
    c ∈ (mem.linksOf object).map Link.content ↔ c ∈ (pg.linksOf minted object).map Link.content := by
  simp only [Multiset.mem_map, mem_linksOf, mem_linksOf_pg]
  constructor
  · rintro ⟨l, ⟨⟨id, hl⟩, ends⟩, rfl⟩
    obtain ⟨row, hrow, content, hs, ht⟩ := paired.row_of_link hl
    refine ⟨_, ⟨_, row, hrow, ?_, rfl⟩, content.symm⟩
    rwa [hs, ht, Ulid.toString_injective.eq_iff, Ulid.toString_injective.eq_iff]
  · rintro ⟨_, ⟨key, row, hrow, ends, rfl⟩, rfl⟩
    obtain ⟨id, l, rfl, hl, content, hs, ht⟩ := paired.link_of_row hrow
    rw [hs, ht, Ulid.toString_injective.eq_iff, Ulid.toString_injective.eq_iff] at ends
    exact ⟨l, ⟨⟨id, hl⟩, ends⟩, content⟩

/-- Managers that hold the same answer every query the same. -/
theorem inStep (paired : Paired minted mem pg) : InStep minted mem pg where
  queries := by
    intro call query memNow pgNow
    cases call with
    | read id =>
      have same := paired.objects id
      simp only [InMemoryObjectManager.perform, PgObjectManager.perform, ObjectAnswer.Same,
        InMemoryObjectManager.read, PgObjectManager.read, Option.map_map]
      exact same
    | links object => exact paired.linksOf_same object
    | findByKind kind => exact paired.findByKind_same kind
    | findByLabel label => exact paired.findByLabel_same label
    | _ => cases query
  memLinks := by
    intro object l hl
    obtain ⟨⟨id, hid⟩, -⟩ := mem_linksOf.1 hl
    exact paired.live id l hid
  pgLinks := by
    intro object l hl
    obtain ⟨key, row, hrow, -, rfl⟩ := mem_linksOf_pg.1 hl
    obtain ⟨id, l, rfl, hl, content, hs, ht⟩ := paired.link_of_row hrow
    have fields := content
    simp only [Link.content, Prod.mk.injEq] at fields
    rw [← fields.2.1, ← fields.2.2.1]
    simp only [PgObjectManager.read, Option.isSome_map, paired.isSome_objects]
    exact paired.live id l hl

/-! ### Calls that meet the condition -/

theorem create (paired : Paired minted mem pg) {id : ObjectId} {kind label : String}
    {data : List UInt8} {memNow pgNow : ℤ} (fresh : mem.objects.lookup id = none)
    (texts : IsText kind ∧ IsText label) :
    Paired minted (mem.create id kind label data memNow).2
      (pg.create id kind label data pgNow).2 := by
  have absent : pg.objects.lookup id.toString = none := paired.agreeObjects.lookup_eq_none fresh
  have inserted : (pg.create id kind label data pgNow).2 = { pg with
      objects := pg.objects.insert id.toString ⟨id.toString, kind, label, data, pgNow, pgNow⟩ } :=
    if_pos ⟨texts.1, texts.2, absent⟩
  rw [inserted]
  constructor
  · exact paired.agreeObjects.insert Ulid.toString_injective
      (by simp [Object.content, rowToObject, Ulid.fromString_toString])
  · exact FiniteMap.forall_insert paired.objectKeys ⟨⟨id, rfl, rfl⟩, texts⟩
  · exact paired.links
  · exact paired.linkKeys
  · exact fun lid l hl => (paired.live lid l hl).imp FiniteMap.isSome_insert FiniteMap.isSome_insert

theorem update (paired : Paired minted mem pg) (id : ObjectId) (data : List UInt8)
    (memNow pgNow : ℤ) : (mem.update id data memNow).1 = (pg.update id data pgNow).1 ∧
      Paired minted (mem.update id data memNow).2 (pg.update id data pgNow).2 := by
  have same := paired.objects id
  cases hrow : pg.objects.lookup id.toString with
  | none =>
    rw [hrow, Option.map_none, Option.map_eq_none_iff] at same
    simp only [InMemoryObjectManager.update, PgObjectManager.update, same, hrow]
    exact ⟨trivial, paired⟩
  | some row =>
    rw [hrow, Option.map_some, Option.map_eq_some_iff] at same
    obtain ⟨o, ho, content⟩ := same
    simp only [InMemoryObjectManager.update, PgObjectManager.update, ho, hrow, true_and]
    simp only [Object.content, rowToObject, Prod.mk.injEq] at content
    constructor
    · exact paired.agreeObjects.insert Ulid.toString_injective
        (by simp [Object.content, rowToObject, content])
    · exact FiniteMap.forall_insert paired.objectKeys (paired.objectKeys _ row hrow)
    · exact paired.links
    · exact paired.linkKeys
    · exact fun lid l hl => (paired.live lid l hl).imp FiniteMap.isSome_insert FiniteMap.isSome_insert

/-- Without links of the object the cascade finds nothing. -/
theorem delete (paired : Paired minted mem pg) {id : ObjectId} (unlinked : mem.linksOf id = 0) :
    Paired minted (mem.delete id).2 (pg.delete id).2 := by
  have apart : ∀ lid l, mem.links.lookup lid = some l → l.sourceId ≠ id ∧ l.targetId ≠ id := by
    intro lid l hl
    rw [← not_or]
    intro ends
    have : l ∈ mem.linksOf id := mem_linksOf.2 ⟨⟨lid, hl⟩, ends⟩
    simp [unlinked] at this
  have links : ∀ key, (pg.delete id).2.links.lookup key = pg.links.lookup key := by
    intro key
    simp only [PgObjectManager.delete, PgObjectManager.deleteObject]
    split_ifs
    · rw [FiniteMap.lookup_filter]
      cases hrow : pg.links.lookup key with
      | none => rfl
      | some row =>
        obtain ⟨lid, l, -, hl, -, hs, ht⟩ := paired.link_of_row hrow
        have ends := apart lid l hl
        simp [hs, ht, Ulid.toString_injective.eq_iff, ends]
    · rfl
  constructor
  · exact paired.agreeObjects.erase Ulid.toString_injective id
  · exact FiniteMap.forall_erase paired.objectKeys id.toString
  · intro lid
    rw [links]
    exact paired.links lid
  · intro key row hrow
    rw [links] at hrow
    exact paired.linkKeys key row hrow
  · intro lid l hl
    have ends := apart lid l hl
    simp only [InMemoryObjectManager.delete]
    rw [Finmap.lookup_erase_ne ends.1, Finmap.lookup_erase_ne ends.2]
    exact paired.live lid l hl

theorem link (paired : Paired minted mem pg) {id : LinkId} {source target : ObjectId} {kind : String}
    {memNow pgNow : ℤ} (fresh : mem.links.lookup id = none) (text : IsText kind)
    (live : (mem.read source).isSome ∧ (mem.read target).isSome) :
    Paired minted (mem.link id source target kind memNow).2
      (pg.link id source target kind pgNow).2 := by
  have absent : pg.links.lookup id.toString = none := paired.agreeLinks.lookup_eq_none fresh
  have rows : (pg.objects.lookup source.toString).isSome ∧
      (pg.objects.lookup target.toString).isSome := by
    rw [paired.isSome_objects, paired.isSome_objects]
    exact live
  have inserted : (pg.link id source target kind pgNow).2 = { pg with
      links := pg.links.insert id.toString
        ⟨id.toString, source.toString, target.toString, kind, pgNow⟩ } :=
    if_pos ⟨text, absent, rows⟩
  rw [inserted]
  constructor
  · exact paired.objects
  · exact paired.objectKeys
  · exact paired.agreeLinks.insert Ulid.toString_injective
      (by simp [Link.content, rowToLink, Ulid.fromString_toString])
  · exact FiniteMap.forall_insert paired.linkKeys ⟨⟨id, rfl, rfl⟩, ⟨source, rfl⟩, target, rfl⟩
  · exact FiniteMap.forall_insert paired.live live

theorem unlink (paired : Paired minted mem pg) (id : LinkId) :
    Paired minted (mem.unlink id).2 (pg.unlink id).2 := by
  constructor
  · exact paired.objects
  · exact paired.objectKeys
  · exact paired.agreeLinks.erase Ulid.toString_injective id
  · exact FiniteMap.forall_erase paired.linkKeys id.toString
  · exact FiniteMap.forall_erase paired.live id

/-- The id that a call draws is new. -/
def Fresh (mem : InMemoryObjectManager) : ObjectCall → Prop
  | .create id .. => mem.objects.lookup id = none
  | .link id .. => mem.links.lookup id = none
  | _ => True

theorem perform (paired : Paired minted mem pg) {call : ObjectCall} (fresh : Fresh mem call)
    (meets : mem.Meets call) (memNow pgNow : ℤ) :
    (mem.perform memNow call).1.Same (pg.perform minted pgNow call).1 ∧
      Paired minted (mem.perform memNow call).2 (pg.perform minted pgNow call).2 := by
  cases call with
  | create id kind label data => exact ⟨rfl, paired.create fresh meets⟩
  | update id data => exact paired.update id data memNow pgNow
  | delete id => exact ⟨(paired.isSome_objects id).symm, paired.delete meets⟩
  | link id source target kind => exact ⟨rfl, paired.link fresh meets.1 meets.2⟩
  | unlink id => exact ⟨(paired.isSome_links id).symm, paired.unlink id⟩
  | read id => exact ⟨paired.inStep.queries (.read id) trivial memNow pgNow, paired⟩
  | links object => exact ⟨paired.inStep.queries (.links object) trivial memNow pgNow, paired⟩
  | findByKind kind => exact ⟨paired.inStep.queries (.findByKind kind) trivial memNow pgNow, paired⟩
  | findByLabel label =>
    exact ⟨paired.inStep.queries (.findByLabel label) trivial memNow pgNow, paired⟩

/-- A call that breaks the condition leaves the managers out of step. -/
theorem meets_of_inStep (paired : Paired minted mem pg) {call : ObjectCall} (fresh : Fresh mem call)
    {memNow pgNow : ℤ}
    (inStep : InStep minted (mem.perform memNow call).2 (pg.perform minted pgNow call).2) :
    mem.Meets call := by
  cases call with
  | create id kind label data =>
    by_contra texts
    have refused : (pg.create id kind label data pgNow).2 = pg :=
      if_neg fun h => texts ⟨h.1, h.2.1⟩
    have absent : pg.objects.lookup id.toString = none := paired.agreeObjects.lookup_eq_none fresh
    have same := inStep.queries (.read id) trivial 0 0
    simp only [InMemoryObjectManager.perform, PgObjectManager.perform, refused] at same
    simp [ObjectAnswer.Same, InMemoryObjectManager.read, InMemoryObjectManager.create,
      PgObjectManager.read, absent] at same
  | link id source target kind =>
    have new : (⟨id, source, target, kind, memNow⟩ : Link) ∈
        (mem.link id source target kind memNow).2.linksOf source :=
      mem_linksOf.2 ⟨⟨id, Finmap.lookup_insert _⟩, .inl rfl⟩
    refine ⟨?_, inStep.memLinks source _ new⟩
    by_contra text
    have refused : (pg.link id source target kind pgNow).2 = pg := if_neg fun h => text h.1
    have same := inStep.queries (.links source) trivial 0 0
    simp only [InMemoryObjectManager.perform, PgObjectManager.perform, refused,
      ObjectAnswer.Same] at same
    obtain ⟨l, hl, content⟩ := Multiset.mem_map.1 ((same _).1 (Multiset.mem_map_of_mem _ new))
    obtain ⟨key, row, hrow, -, rfl⟩ := mem_linksOf_pg.1 hl
    obtain ⟨lid, l, rfl, hl, content', -⟩ := paired.link_of_row hrow
    have lid_eq : lid = id := by
      obtain ⟨⟨lid', same', hid⟩, -⟩ := paired.linkKeys _ row hrow
      have first := congrArg Prod.fst content
      simp only [Link.content, rowToLink] at first
      rwa [read_toString lid row.id hid] at first
    rw [lid_eq, show mem.links.lookup id = none from fresh] at hl
    cases hl
  | delete id =>
    refine Multiset.eq_zero_of_forall_notMem fun l hl => ?_
    obtain ⟨stored, ends⟩ := mem_linksOf.1 hl
    have live := inStep.memLinks id l (mem_linksOf.2 ⟨stored, ends⟩)
    simp only [InMemoryObjectManager.perform, InMemoryObjectManager.delete,
      InMemoryObjectManager.read] at live
    rcases ends with rfl | rfl
    · simp at live
    · simp at live
  | _ => trivial

end Paired

/-! ## Runs -/

theorem paired_new : Paired minted .new .new where
  objects := fun _ => rfl
  objectKeys := fun _ _ h => by cases h
  links := fun _ => rfl
  linkKeys := fun _ _ h => by cases h
  live := fun _ _ h => by cases h

/-- The ids drawn in a run are new, and no two of them are the same. -/
structure FreshIds (mem : InMemoryObjectManager) (steps : List ObjectStep) : Prop where
  objects : (drawnObjects steps).Nodup
  links : (drawnLinks steps).Nodup
  newObjects : ∀ id ∈ drawnObjects steps, mem.objects.lookup id = none
  newLinks : ∀ id ∈ drawnLinks steps, mem.links.lookup id = none

theorem FreshIds.fresh {s : ObjectStep} {steps : List ObjectStep}
    (ids : FreshIds mem (s :: steps)) : Paired.Fresh mem s.call := by
  obtain ⟨call, memNow, pgNow⟩ := s
  cases call with
  | create id kind label data => exact ids.newObjects id List.mem_cons_self
  | link id source target kind => exact ids.newLinks id List.mem_cons_self
  | _ => trivial

theorem FreshIds.step {s : ObjectStep} {steps : List ObjectStep} (ids : FreshIds mem (s :: steps)) :
    FreshIds (mem.perform s.memNow s.call).2 steps := by
  obtain ⟨call, memNow, pgNow⟩ := s
  obtain ⟨objects, links, newObjects, newLinks⟩ := ids
  cases call with
  | create id kind label data =>
    obtain ⟨first, objects⟩ := List.nodup_cons.1 objects
    refine ⟨objects, links, fun id' h => ?_, newLinks⟩
    have other : id' ≠ id := fun e => first (e ▸ h)
    simp only [InMemoryObjectManager.perform, InMemoryObjectManager.create]
    rw [Finmap.lookup_insert_of_ne _ other]
    exact newObjects id' (List.mem_cons_of_mem _ h)
  | link id source target kind =>
    obtain ⟨first, links⟩ := List.nodup_cons.1 links
    refine ⟨objects, links, newObjects, fun id' h => ?_⟩
    have other : id' ≠ id := fun e => first (e ▸ h)
    simp only [InMemoryObjectManager.perform, InMemoryObjectManager.link]
    rw [Finmap.lookup_insert_of_ne _ other]
    exact newLinks id' (List.mem_cons_of_mem _ h)
  | update id data =>
    refine ⟨objects, links, fun id' h => ?_, fun id' h => ?_⟩
    · have absent := newObjects id' h
      simp only [InMemoryObjectManager.perform, InMemoryObjectManager.update]
      cases ho : mem.objects.lookup id with
      | none => exact absent
      | some o =>
        have other : id' ≠ id := fun e => by rw [e, ho] at absent; cases absent
        dsimp only
        rwa [Finmap.lookup_insert_of_ne _ other]
    · simp only [InMemoryObjectManager.perform, InMemoryObjectManager.update]
      cases mem.objects.lookup id <;> exact newLinks id' h
  | delete id =>
    refine ⟨objects, links, fun id' h => ?_, newLinks⟩
    simp only [InMemoryObjectManager.perform, InMemoryObjectManager.delete]
    by_cases same : id' = id
    · rw [same, Finmap.lookup_erase]
    · rw [Finmap.lookup_erase_ne same]
      exact newObjects id' h
  | unlink id =>
    refine ⟨objects, links, newObjects, fun id' h => ?_⟩
    simp only [InMemoryObjectManager.perform, InMemoryObjectManager.unlink]
    by_cases same : id' = id
    · rw [same, Finmap.lookup_erase]
    · rw [Finmap.lookup_erase_ne same]
      exact newLinks id' h
  | _ => exact ⟨objects, links, newObjects, newLinks⟩

theorem Paired.agreeAll_iff (paired : Paired minted mem pg) {steps : List ObjectStep}
    (ids : FreshIds mem steps) : AgreeAll minted mem pg steps ↔ mem.MeetsAll steps := by
  induction steps generalizing mem pg with
  | nil => exact Iff.rfl
  | cons s steps ih =>
    constructor
    · rintro ⟨-, inStep, rest⟩
      have meets := paired.meets_of_inStep ids.fresh inStep
      exact ⟨meets, (ih (paired.perform ids.fresh meets _ _).2 ids.step).1 rest⟩
    · rintro ⟨meets, rest⟩
      obtain ⟨same, paired'⟩ := paired.perform ids.fresh meets s.memNow s.pgNow
      exact ⟨same, paired'.inStep, (ih paired' ids.step).2 rest⟩

/-- From empty managers a run agrees, answers and links, exactly when all its calls meet the
condition. -/
theorem objectManagers_agree_iff (minted : String → Ulid) (steps : List ObjectStep)
    (objects : (drawnObjects steps).Nodup) (links : (drawnLinks steps).Nodup) :
    AgreeAll minted .new .new steps ↔ InMemoryObjectManager.new.MeetsAll steps :=
  paired_new.agreeAll_iff ⟨objects, links, fun _ _ => rfl, fun _ _ => rfl⟩

/-- Two linked objects. -/
def linkedPair : List ObjectStep :=
  [⟨.create (.ofNat 1) "node" "A" [], 0, 0⟩, ⟨.create (.ofNat 2) "node" "B" [], 0, 0⟩,
    ⟨.link (.ofNat 3) (.ofNat 1) (.ofNat 2) "connected_to", 0, 0⟩]

/-- The link is taken away before one of its objects. -/
theorem agreeAll_unlinked : AgreeAll (fun _ => .ofNat 0) .new .new
    (linkedPair ++ [⟨.unlink (.ofNat 3), 0, 0⟩, ⟨.delete (.ofNat 2), 0, 0⟩]) := by
  have texts : IsText "node" ∧ IsText "A" ∧ IsText "B" ∧ IsText "connected_to" := by decide
  refine (objectManagers_agree_iff _ _ (by decide) (by decide)).2 ⟨⟨texts.1, texts.2.1⟩,
    ⟨texts.1, texts.2.2.1⟩, ⟨texts.2.2.2, rfl, rfl⟩, trivial, ?_, trivial⟩
  rfl

/-- An object is deleted under its link: in memory the link stays, and the other object lists it. -/
theorem dangling_link : ¬AgreeAll (fun _ => .ofNat 0) .new .new
    (linkedPair ++ [⟨.delete (.ofNat 2), 0, 0⟩]) := by
  rintro ⟨-, -, -, -, -, -, -, inStep, -⟩
  have ends := inStep.memLinks (.ofNat 1) ⟨.ofNat 3, .ofNat 1, .ofNat 2, "connected_to", 0⟩
    (mem_linksOf.2 ⟨⟨.ofNat 3, rfl⟩, .inl rfl⟩)
  exact absurd ends.2 (by decide)

end Agreement

end TORdex
