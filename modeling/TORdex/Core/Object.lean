import TORdex.Core.Json
import TORdex.Core.Ulid
import TORdex.Lib.FiniteMap

/-!
# Objects and links

The calls of an object manager and the manager in memory.  The id of a new object or link is drawn by
the call; here it comes with it.  A list of results is a multiset: its order is that of a hash map, or
of clock readings.
-/

namespace TORdex

/-- An object is known by a ULID. -/
abbrev ObjectId := Ulid

/-- A link is known by a ULID. -/
abbrev LinkId := Ulid

/-- An object of a kind, with its data. -/
structure Object where
  id : ObjectId
  kind : String
  label : String
  data : List UInt8
  createdAt : ℤ
  updatedAt : ℤ

/-- A link from one object to another. -/
structure Link where
  id : LinkId
  sourceId : ObjectId
  targetId : ObjectId
  kind : String
  createdAt : ℤ

/-- An object without its clock readings. -/
def Object.content (o : Object) : ObjectId × String × String × List UInt8 :=
  (o.id, o.kind, o.label, o.data)

/-- A link without its clock reading. -/
def Link.content (l : Link) : LinkId × ObjectId × ObjectId × String :=
  (l.id, l.sourceId, l.targetId, l.kind)

/-- The calls of `ObjectManager`. -/
inductive ObjectCall where
  | create (id : ObjectId) (kind label : String) (data : List UInt8)
  | read (id : ObjectId)
  | update (id : ObjectId) (data : List UInt8)
  | delete (id : ObjectId)
  | link (id : LinkId) (source target : ObjectId) (kind : String)
  | unlink (id : LinkId)
  | links (object : ObjectId)
  | findByKind (kind : String)
  | findByLabel (label : String)

/-- What a call answers. -/
inductive ObjectAnswer where
  | id (id : Ulid)
  | object (o : Option Object)
  | done (b : Bool)
  | links (found : Multiset Link)
  | objects (found : Multiset Object)

/-- The same answer, clock readings ignored and lists compared as sets. -/
def ObjectAnswer.Same : ObjectAnswer → ObjectAnswer → Prop
  | .id a, .id b => a = b
  | .object a, .object b => a.map Object.content = b.map Object.content
  | .done a, .done b => a = b
  | .links a, .links b => ∀ c, c ∈ a.map Link.content ↔ c ∈ b.map Link.content
  | .objects a, .objects b => ∀ c, c ∈ a.map Object.content ↔ c ∈ b.map Object.content
  | _, _ => False

/-- The objects and the links by their ids. -/
structure InMemoryObjectManager where
  objects : HashMap ObjectId Object
  links : HashMap LinkId Link

namespace InMemoryObjectManager

/-- Without objects and links. -/
def new : InMemoryObjectManager := ⟨∅, ∅⟩

variable (m : InMemoryObjectManager)

/-- Create an object. -/
def create (id : ObjectId) (kind label : String) (data : List UInt8) (now : ℤ) :
    ObjectId × InMemoryObjectManager :=
  (id, { m with objects := m.objects.insert id ⟨id, kind, label, data, now, now⟩ })

/-- The object of an id. -/
def read (id : ObjectId) : Option Object := m.objects.lookup id

/-- Replace the data of an object, and tell whether there is one. -/
def update (id : ObjectId) (data : List UInt8) (now : ℤ) : Bool × InMemoryObjectManager :=
  match m.objects.lookup id with
  | some obj => (true, { m with objects := m.objects.insert id { obj with data, updatedAt := now } })
  | none => (false, m)

/-- The links of the object stay. -/
def delete (id : ObjectId) : Bool × InMemoryObjectManager :=
  ((m.objects.lookup id).isSome, { m with objects := m.objects.erase id })

/-- Create a link; its ends need not exist. -/
def link (id : LinkId) (source target : ObjectId) (kind : String) (now : ℤ) :
    LinkId × InMemoryObjectManager :=
  (id, { m with links := m.links.insert id ⟨id, source, target, kind, now⟩ })

/-- Delete a link, and tell whether there was one. -/
def unlink (id : LinkId) : Bool × InMemoryObjectManager :=
  ((m.links.lookup id).isSome, { m with links := m.links.erase id })

/-- The links from an object and to it. -/
def linksOf (object : ObjectId) : Multiset Link :=
  (FiniteMap.values m.links).filter fun l => l.sourceId = object ∨ l.targetId = object

/-- The objects of a kind. -/
def findByKind (kind : String) : Multiset Object := (FiniteMap.values m.objects).filter (·.kind = kind)

/-- The objects with a label. -/
def findByLabel (label : String) : Multiset Object := (FiniteMap.values m.objects).filter (·.label = label)

/-- The answer and the effect of a call. -/
def perform (now : ℤ) : ObjectCall → ObjectAnswer × InMemoryObjectManager
  | .create id kind label data => let r := m.create id kind label data now; (.id r.1, r.2)
  | .read id => (.object (m.read id), m)
  | .update id data => let r := m.update id data now; (.done r.1, r.2)
  | .delete id => let r := m.delete id; (.done r.1, r.2)
  | .link id source target kind => let r := m.link id source target kind now; (.id r.1, r.2)
  | .unlink id => let r := m.unlink id; (.done r.1, r.2)
  | .links object => (.links (m.linksOf object), m)
  | .findByKind kind => (.objects (m.findByKind kind), m)
  | .findByLabel label => (.objects (m.findByLabel label), m)

end InMemoryObjectManager

end TORdex
