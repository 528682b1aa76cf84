import Mathlib.Data.String.Basic
import TORdex.Core.Primitives
import TORdex.Core.Ulid
import TORdex.Lib.SortedMap

/-!
# Canonical forms

A JSON object is a `serde_json::Map`, which keeps its keys sorted.  `str::to_lowercase` is a parameter.
-/

namespace TORdex.KnowledgeBase

open SortedMap

/-- Normalization strategy for canonicalization. -/
inductive Normalization where
  | sortedKeys
  | lowercase
  | stripWhitespace
  | full
  deriving DecidableEq, Repr

/-- The `Debug` name. -/
def Normalization.debug : Normalization → String
  | sortedKeys => "SortedKeys"
  | lowercase => "Lowercase"
  | stripWhitespace => "StripWhitespace"
  | full => "Full"

/-- A canonical representation of knowledge content. -/
structure CanonicalForm where
  normalized : String
  schema : String
  deriving DecidableEq, Repr

/-- A map with these entries, inserted in order. -/
def toMap (fields : List (String × Json)) : List (String × Json) :=
  fields.foldl (fun map f => insertEntry f.1 f.2 map) []

mutual

/-- The keys are collected, sorted and inserted one after the other. -/
def sortKeys : Json → Json
  | .obj fields => .obj (toMap ((sortFields fields).mergeSort fun a b => a.1 ≤ b.1))
  | .arr items => .arr (sortItems items)
  | other => other

/-- The same for all fields. -/
def sortFields : List (String × Json) → List (String × Json)
  | [] => []
  | (k, v) :: fields => (k, sortKeys v) :: sortFields fields

/-- The same for all items. -/
def sortItems : List Json → List Json
  | [] => []
  | v :: items => sortKeys v :: sortItems items

end

section Lowercase

variable (toLowercase : String → String)

mutual

/-- Keys that become equal overwrite each other. -/
def lowercase : Json → Json
  | .str s => .str (toLowercase s)
  | .obj fields => .obj (toMap (lowercaseFields fields))
  | .arr items => .arr (lowercaseItems items)
  | other => other

/-- The same for all fields, and their keys. -/
def lowercaseFields : List (String × Json) → List (String × Json)
  | [] => []
  | (k, v) :: fields => (toLowercase k, lowercase v) :: lowercaseFields fields

/-- The same for all items. -/
def lowercaseItems : List Json → List Json
  | [] => []
  | v :: items => lowercase v :: lowercaseItems items

end

end Lowercase

mutual

/-- Only values are stripped, not keys. -/
def stripWhitespace : Json → Json
  | .str s => .str (String.ofList (s.toList.filter fun c => !isWhiteSpace c))
  | .obj fields => .obj (toMap (stripFields fields))
  | .arr items => .arr (stripItems items)
  | other => other

/-- The same for all fields. -/
def stripFields : List (String × Json) → List (String × Json)
  | [] => []
  | (k, v) :: fields => (k, stripWhitespace v) :: stripFields fields

/-- The same for all items. -/
def stripItems : List Json → List Json
  | [] => []
  | v :: items => stripWhitespace v :: stripItems items

end

/-- A canonicalizer transforms knowledge content into a canonical form. -/
structure Canonicalizer where
  strategy : Normalization

/-- Canonicalize a JSON value into its canonical form. -/
def Canonicalizer.canonicalize (c : Canonicalizer) (toLowercase : String → String) (value : Json) :
    CanonicalForm :=
  let normalized :=
    match c.strategy with
    | .sortedKeys => sortKeys value
    | .lowercase => lowercase toLowercase value
    | .stripWhitespace => stripWhitespace value
    | .full => stripWhitespace (lowercase toLowercase (sortKeys value))
  ⟨normalized.render, c.strategy.debug⟩

end TORdex.KnowledgeBase

/-!
## The knowledge core

`ingest` and `revise` with the subsystems that they use: fingerprints, deduplication, version chains and
provenance.  SHA-256 is a parameter, and clock readings come with the calls, in the order they are taken.
-/

namespace TORdex.KnowledgeBase

/-! ### Fingerprints -/

/-- A content-based fingerprint. -/
inductive Fingerprint where
  | sha256 (digest : Vector UInt8 32)
  | simHash (hash : UInt64)
  | contentHash (hash : Vector UInt8 16)
  deriving DecidableEq

/-- `hex::encode`. -/
def hexEncode (bytes : List UInt8) : String :=
  String.ofList (bytes.flatMap fun b => [Json.hexDigit (b.toNat / 16), Json.hexDigit (b.toNat % 16)])

/-- The hex-encoded string representation; a SimHash has sixteen digits. -/
def Fingerprint.hex : Fingerprint → String
  | sha256 digest => hexEncode digest.toList
  | simHash hash =>
    String.ofList ((List.range 16).map fun i => Json.hexDigit (hash.toNat / 16 ^ (15 - i) % 16))
  | contentHash hash => hexEncode hash.toList

/-- What the core takes from outside: SHA-256, and the lower case of a text. -/
structure Env where
  digest : List UInt8 → Vector UInt8 32
  toLowercase : String → String

/-- Compute a SHA-256 fingerprint from serializable content. -/
def Env.sha256 (env : Env) (content : Json) : Fingerprint := .sha256 (env.digest content.toVec)

/-! ### Deduplication -/

/-- What becomes of a duplicate. -/
inductive DedupStrategy where
  | discard
  | keepLinked
  | replaceIfHigher
  | mergeMetadata
  deriving DecidableEq, Repr

/-- Result of a deduplication check. -/
structure DedupResult where
  isDuplicate : Bool
  existingId : Option String
  similarity : F64
  strategy : DedupStrategy
  deriving DecidableEq, Repr

/-- The fingerprints of what was registered. -/
structure DedupEngine where
  /-- Fingerprint hex to knowledge id. -/
  exactIndex : HashMap String String
  reverseIndex : HashMap String String
  simhashes : List (String × UInt64)

namespace DedupEngine

/-- Nothing is registered. -/
def new : DedupEngine := ⟨∅, ∅, []⟩

/-- Register a knowledge record's fingerprint for future dedup checks. -/
def register (d : DedupEngine) (knowledgeId : String) (fingerprint : Fingerprint) : DedupEngine where
  exactIndex := d.exactIndex.insert fingerprint.hex knowledgeId
  reverseIndex := d.reverseIndex.insert knowledgeId fingerprint.hex
  simhashes :=
    match fingerprint with
    | .simHash h => d.simhashes ++ [(knowledgeId, h)]
    | _ => d.simhashes

/-- Check if a fingerprint already exists. -/
def checkExact (d : DedupEngine) (fingerprint : Fingerprint) : Option DedupResult :=
  (d.exactIndex.lookup fingerprint.hex).map fun existingId =>
    ⟨true, some existingId, .finite ⟨false, 0, 0⟩, .discard⟩

/-- `(a ^ b).count_ones()`. -/
def hamming (a b : UInt64) : ℕ := (List.range 64).countP fun i => (a ^^^ b).toNat.testBit i

/-- `f64::from(dist) / 64.0` for at most 64 bits, by its shortest decimal. -/
def similarity (dist : ℕ) : F64 :=
  let millionths := dist * 15625
  let zeros := (List.range 6).countP fun i => millionths % 10 ^ (i + 1) = 0
  .finite ⟨false, millionths / 10 ^ zeros, zeros - 6⟩

/-- One round of `check_simhash`: an entry within the threshold takes over when it is closer. -/
def closer (query : UInt64) (threshold : ℕ) (best : Option (String × ℕ)) (entry : String × UInt64) :
    Option (String × ℕ) :=
  let dist := hamming query entry.2
  if dist ≤ threshold then
    match best with
    | some (_, bestDist) => if dist < bestDist then some (entry.1, dist) else best
    | none => some (entry.1, dist)
  else best

/-- Check for near-duplicates using a SimHash fingerprint. -/
def checkSimhash (d : DedupEngine) (fingerprint : Fingerprint) (threshold : ℕ) : Option DedupResult :=
  match fingerprint with
  | .simHash query =>
    (d.simhashes.foldl (closer query threshold) none).map fun best =>
      ⟨true, some best.1, similarity best.2, .keepLinked⟩
  | _ => none

/-- Unregister a knowledge record. -/
def unregister (d : DedupEngine) (knowledgeId : String) : DedupEngine where
  exactIndex :=
    match d.reverseIndex.lookup knowledgeId with
    | some hex => d.exactIndex.erase hex
    | none => d.exactIndex
  reverseIndex := d.reverseIndex.erase knowledgeId
  simhashes := d.simhashes.filter fun e => e.1 != knowledgeId

end DedupEngine

/-! ### Versions -/

/-- One version of a record; `next_id` is the id of the record itself. -/
structure VersionChain where
  version : ℕ
  previousId : Option String
  nextId : Option String
  createdAt : OffsetDateTime
  reason : String
  deriving DecidableEq, Repr

/-- The versions of all objects. -/
structure VersionManager where
  chains : List VersionChain

namespace VersionManager

/-- Without versions. -/
def new : VersionManager := ⟨[]⟩

/-- The first version of a knowledge record. -/
def initial (now : OffsetDateTime) : VersionChain := ⟨1, none, none, now, "initial"⟩

/-- A new version linked from a previous one. -/
def nextVersion (previous : VersionChain) (knowledgeId reason : String) (now : OffsetDateTime) :
    VersionChain :=
  ⟨previous.version + 1, previous.nextId, some knowledgeId, now, reason⟩

/-- Record a version chain. -/
def record (m : VersionManager) (chain : VersionChain) : VersionManager := ⟨m.chains ++ [chain]⟩

/-- The version chain for a given knowledge record id. -/
def find (m : VersionManager) (knowledgeId : String) : Option VersionChain :=
  m.chains.find? fun c => c.nextId == some knowledgeId

/-- The loop of `history`; `none` is out of fuel. -/
def historyLoop (m : VersionManager) : ℕ → Option String → Option (List VersionChain)
  | _, none => some []
  | 0, some _ => none
  | fuel + 1, some cid =>
    match m.find cid with
    | some chain => (m.historyLoop fuel chain.previousId).map (chain :: ·)
    | none => some (m.chains.find? fun c => c.version == 1 && c.nextId == some cid).toList

/-- Walk the version chain backwards from a knowledge id to the first version.  A walk longer than the list of
chains would be in a cycle. -/
def history (m : VersionManager) (knowledgeId : String) : Option (List VersionChain) :=
  m.historyLoop (m.chains.length + 1) (some knowledgeId)

end VersionManager

/-! ### Records -/

/-- A confidence score; `f64::clamp` keeps `NaN`. -/
structure Confidence where
  raw : F64
  deriving DecidableEq, Repr

/-- A confidence, clamped to the range from zero to one. -/
def Confidence.new (raw : F64) : Confidence :=
  let zero : F64 := .finite ⟨false, 0, 0⟩
  let one : F64 := .finite ⟨false, 1, 0⟩
  if raw.le zero && !zero.le raw then ⟨zero⟩
  else if one.le raw && !raw.le one then ⟨one⟩
  else ⟨raw⟩

/-- A step of how something was produced. -/
structure ProvenanceStep where
  action : String
  actor : String
  inputs : List String
  params : Json
  timestamp : OffsetDateTime

/-- How something was produced. -/
structure Provenance where
  sourceIds : List String
  producer : String
  chain : List ProvenanceStep
  recordedAt : OffsetDateTime

/-- Add a derivation step to the chain. -/
def Provenance.withStep (p : Provenance) (step : ProvenanceStep) : Provenance :=
  { p with chain := p.chain ++ [step] }

/-- The fields of `tordex_types::Knowledge` that are read. -/
structure Knowledge where
  id : Ulid
  kind : String
  content : Json
  confidence : F64
  sourceIds : List String
  metadata : HashMap String String

/-- An immutable knowledge record. -/
structure KnowledgeRecord where
  id : String
  fingerprint : Fingerprint
  kind : String
  content : Json
  canonicalForm : CanonicalForm
  confidence : Confidence
  version : VersionChain
  provenance : Provenance
  sourceIds : List String
  metadata : HashMap String String
  createdAt : OffsetDateTime

/-- The parts of the knowledge layer. -/
structure KnowledgeCore where
  canonicalizer : Canonicalizer
  dedup : DedupEngine
  versions : VersionManager

namespace KnowledgeCore

/-- Nothing is ingested. -/
def new : KnowledgeCore := ⟨⟨.full⟩, .new, .new⟩

variable (env : Env) (core : KnowledgeCore)

/-- Ingest a knowledge value, producing an immutable record. -/
def ingest (knowledge : Knowledge) (now : ℕ → OffsetDateTime) : KnowledgeRecord × KnowledgeCore :=
  let id := knowledge.id.toString
  let canonical := core.canonicalizer.canonicalize env.toLowercase knowledge.content
  let provenance : Provenance := ⟨knowledge.sourceIds, "knowledge_core", [], now 0⟩
  let fingerprint := env.sha256 knowledge.content
  let dedup := core.dedup.register id fingerprint
  let record : KnowledgeRecord := {
    id, fingerprint, provenance
    kind := knowledge.kind
    content := knowledge.content
    canonicalForm := canonical
    confidence := .new knowledge.confidence
    version := VersionManager.initial (now 1)
    sourceIds := knowledge.sourceIds
    metadata := knowledge.metadata
    createdAt := now 2 }
  (record, { core with dedup, versions := core.versions.record (VersionManager.initial (now 3)) })

/-- Create a new version of an existing knowledge record. -/
def revise (previous : KnowledgeRecord) (newContent : Json) (reason : String) (now : ℕ → OffsetDateTime) :
    KnowledgeRecord × KnowledgeCore :=
  let id := previous.id ++ "-v" ++ toString (previous.version.version + 1)
  let canonical := core.canonicalizer.canonicalize env.toLowercase newContent
  let fingerprint := env.sha256 newContent
  let provenance :=
    previous.provenance.withStep ⟨"revised", "knowledge_core", [previous.id], .null, now 0⟩
  let version := VersionManager.nextVersion previous.version id reason (now 1)
  let record : KnowledgeRecord := {
    id, fingerprint, version, provenance
    kind := previous.kind
    content := newContent
    canonicalForm := canonical
    confidence := previous.confidence
    sourceIds := previous.sourceIds
    metadata := previous.metadata
    createdAt := now 2 }
  (record, { core with
    dedup := core.dedup.register id fingerprint
    versions := core.versions.record version })

/-- Check for duplicates and return the result. -/
def checkDuplicate (content : Json) : Option DedupResult := core.dedup.checkExact (env.sha256 content)

end KnowledgeCore

end TORdex.KnowledgeBase
