import TORdex.Core.Object
import TORdex.Kernel.PgEventStore

/-!
# The Postgres object manager

Each call is one statement on the tables `kernel_objects` and `kernel_object_links`.  A link refers to
objects by foreign keys: an insertion without them fails, and a deletion takes the links with it.  A
failed insertion is not reported; the caller gets the id all the same.
-/

namespace TORdex

/-- A row of `kernel_objects`. -/
structure PgObjectRow where
  id : String
  kind : String
  label : String
  data : List UInt8
  createdAt : ℤ
  updatedAt : ℤ

/-- A row of `kernel_object_links`. -/
structure PgLinkRow where
  id : String
  sourceId : String
  targetId : String
  kind : String
  createdAt : ℤ

/-- The two tables, by their primary keys. -/
structure PgObjectManager where
  objects : HashMap String PgObjectRow
  links : HashMap String PgLinkRow

/-- `minted` has the ULIDs drawn for ids that cannot be read. -/
def rowToObject (minted : String → Ulid) (row : PgObjectRow) : Object where
  id := (Ulid.fromString row.id).getD (minted row.id)
  kind := row.kind
  label := row.label
  data := row.data
  createdAt := row.createdAt
  updatedAt := row.updatedAt

/-- The link of a row; an id that is no ULID is replaced. -/
def rowToLink (minted : String → Ulid) (row : PgLinkRow) : Link where
  id := (Ulid.fromString row.id).getD (minted row.id)
  sourceId := (Ulid.fromString row.sourceId).getD (minted row.sourceId)
  targetId := (Ulid.fromString row.targetId).getD (minted row.targetId)
  kind := row.kind
  createdAt := row.createdAt

namespace PgObjectManager

/-- Without rows. -/
def new : PgObjectManager := ⟨∅, ∅⟩

section Statements

variable (t : PgObjectManager)

/-- `INSERT INTO kernel_objects`; nothing happens when it fails. -/
def insertObject (row : PgObjectRow) : PgObjectManager :=
  if IsText row.kind ∧ IsText row.label ∧ t.objects.lookup row.id = none then
    { t with objects := t.objects.insert row.id row }
  else t

/-- `INSERT INTO kernel_object_links`, which refers to two rows of `kernel_objects`. -/
def insertLink (row : PgLinkRow) : PgObjectManager :=
  if IsText row.kind ∧ t.links.lookup row.id = none ∧ (t.objects.lookup row.sourceId).isSome ∧
      (t.objects.lookup row.targetId).isSome then
    { t with links := t.links.insert row.id row }
  else t

/-- `DELETE FROM kernel_objects`, which cascades to the links that refer to the row. -/
def deleteObject (id : String) : PgObjectManager where
  objects := t.objects.erase id
  links := if (t.objects.lookup id).isSome then
      FiniteMap.filter (fun row : PgLinkRow => ¬(row.sourceId = id ∨ row.targetId = id)) t.links
    else t.links

end Statements

variable (minted : String → Ulid) (t : PgObjectManager)

/-- Insert an object. -/
def create (id : ObjectId) (kind label : String) (data : List UInt8) (now : ℤ) :
    ObjectId × PgObjectManager :=
  (id, t.insertObject ⟨id.toString, kind, label, data, now, now⟩)

/-- The object of an id. -/
def read (id : ObjectId) : Option Object := (t.objects.lookup id.toString).map (rowToObject minted)

/-- Replace the data of an object, and tell whether there is one. -/
def update (id : ObjectId) (data : List UInt8) (now : ℤ) : Bool × PgObjectManager :=
  match t.objects.lookup id.toString with
  | some row =>
    (true, { t with objects := t.objects.insert id.toString { row with data, updatedAt := now } })
  | none => (false, t)

/-- Delete an object and its links, and tell whether there was one. -/
def delete (id : ObjectId) : Bool × PgObjectManager :=
  ((t.objects.lookup id.toString).isSome, t.deleteObject id.toString)

/-- Insert a link. -/
def link (id : LinkId) (source target : ObjectId) (kind : String) (now : ℤ) :
    LinkId × PgObjectManager :=
  (id, t.insertLink ⟨id.toString, source.toString, target.toString, kind, now⟩)

/-- Delete a link, and tell whether there was one. -/
def unlink (id : LinkId) : Bool × PgObjectManager :=
  ((t.links.lookup id.toString).isSome, { t with links := t.links.erase id.toString })

/-- The links from an object and to it. -/
def linksOf (object : ObjectId) : Multiset Link :=
  ((FiniteMap.values t.links).filter fun row =>
    row.sourceId = object.toString ∨ row.targetId = object.toString).map (rowToLink minted)

/-- A text that `TEXT` does not take makes the query fail, which is an empty result. -/
def findByKind (kind : String) : Multiset Object :=
  if IsText kind then
    ((FiniteMap.values t.objects).filter (·.kind = kind)).map (rowToObject minted)
  else 0

/-- The objects with a label; a text with a NUL is refused. -/
def findByLabel (label : String) : Multiset Object :=
  if IsText label then
    ((FiniteMap.values t.objects).filter (·.label = label)).map (rowToObject minted)
  else 0

/-- The answer and the effect of a call. -/
def perform (now : ℤ) : ObjectCall → ObjectAnswer × PgObjectManager
  | .create id kind label data => let r := t.create id kind label data now; (.id r.1, r.2)
  | .read id => (.object (t.read minted id), t)
  | .update id data => let r := t.update id data now; (.done r.1, r.2)
  | .delete id => let r := t.delete id; (.done r.1, r.2)
  | .link id source target kind => let r := t.link id source target kind now; (.id r.1, r.2)
  | .unlink id => let r := t.unlink id; (.done r.1, r.2)
  | .links object => (.links (t.linksOf minted object), t)
  | .findByKind kind => (.objects (t.findByKind minted kind), t)
  | .findByLabel label => (.objects (t.findByLabel minted label), t)

end PgObjectManager

end TORdex
