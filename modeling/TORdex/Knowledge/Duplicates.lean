import TORdex.Knowledge.Core
import TORdex.Lib.FiniteMap

/-!
# Duplicates

A content is looked up under the fingerprint of its text as it stands; the canonical form plays no part.
-/

namespace TORdex.KnowledgeBase

/-! ## Hex texts -/

theorem hexDigit_injective {m n : ℕ} (hm : m < 16) (hn : n < 16) (h : Json.hexDigit m = Json.hexDigit n) :
    m = n := by
  have table : ∀ m < 16, ∀ n < 16, Json.hexDigit m = Json.hexDigit n → m = n := by decide
  exact table m hm n hn h

theorem hexEncode_injective : Function.Injective hexEncode := by
  intro a b h
  have chars := String.ofList_injective h
  clear h
  induction a generalizing b with
  | nil => cases b <;> simp_all
  | cons x a ih =>
    cases b with
    | nil => simp at chars
    | cons y b =>
      simp only [List.flatMap_cons, List.cons_append, List.nil_append, List.cons.injEq] at chars
      obtain ⟨high, low, rest⟩ := chars
      have bound := x.toNat_lt
      have bound' := y.toNat_lt
      have high := hexDigit_injective (by omega) (by omega) high
      have low := hexDigit_injective (by omega) (by omega) low
      rw [ih rest, UInt8.toNat_inj.1 (show x.toNat = y.toNat by omega)]

theorem hex_sha256_injective {a b : Vector UInt8 32}
    (h : (Fingerprint.sha256 a).hex = (Fingerprint.sha256 b).hex) : a = b :=
  Vector.toList_inj.1 (hexEncode_injective h)

/-! ## Runs of ingest calls -/

/-- The core after some ingest calls, each with its clock readings. -/
def ingestAll (env : Env) (core : KnowledgeCore) (calls : List (Knowledge × (ℕ → OffsetDateTime))) :
    KnowledgeCore :=
  calls.foldl (fun core call => (core.ingest env call.1 call.2).2) core

variable {env : Env} {core : KnowledgeCore} {calls : List (Knowledge × (ℕ → OffsetDateTime))}

theorem ingest_exactIndex (knowledge : Knowledge) (now : ℕ → OffsetDateTime) :
    (core.ingest env knowledge now).2.dedup.exactIndex =
      core.dedup.exactIndex.insert (env.sha256 knowledge.content).hex knowledge.id.toString := rfl

/-- The exact index has the fingerprints of what was ingested. -/
theorem isSome_lookup_ingestAll (hex : String) :
    ((ingestAll env core calls).dedup.exactIndex.lookup hex).isSome ↔
      (core.dedup.exactIndex.lookup hex).isSome ∨
        ∃ call ∈ calls, (env.sha256 call.1.content).hex = hex := by
  induction calls generalizing core with
  | nil => simp [ingestAll]
  | cons call calls ih =>
    have rest := @ih (core.ingest env call.1 call.2).2
    rw [ingest_exactIndex] at rest
    refine rest.trans ?_
    by_cases same : hex = (env.sha256 call.1.content).hex
    · subst same
      simp [Finmap.lookup_insert]
    · rw [Finmap.lookup_insert_of_ne _ same]
      simp [Ne.symm same]

/-- A duplicate is found exactly when a content with the same digest was ingested. -/
theorem checkDuplicate_ingestAll (content : Json) :
    ((ingestAll env .new calls).checkDuplicate env content).isSome ↔
      ∃ call ∈ calls, env.digest call.1.content.toVec = env.digest content.toVec := by
  have index := @isSome_lookup_ingestAll env .new calls (env.sha256 content).hex
  rw [KnowledgeCore.checkDuplicate, DedupEngine.checkExact, Option.isSome_map, index]
  constructor
  · rintro (old | ⟨call, hcall, same⟩)
    · simp [KnowledgeCore.new, DedupEngine.new] at old
    · exact ⟨call, hcall, hex_sha256_injective same⟩
  · rintro ⟨call, hcall, same⟩
    exact .inr ⟨call, hcall, by rw [Env.sha256, Env.sha256, same]⟩

/-- The canonical form that the core gives a content. -/
def canonicalForm (env : Env) (content : Json) : CanonicalForm :=
  KnowledgeCore.new.canonicalizer.canonicalize env.toLowercase content

/-- Every record of the run has it. -/
theorem ingest_canonicalForm (knowledge : Knowledge) (now : ℕ → OffsetDateTime) :
    ((ingestAll env .new calls).ingest env knowledge now).1.canonicalForm =
      canonicalForm env knowledge.content := by
  have kept : (ingestAll env .new calls).canonicalizer = KnowledgeCore.new.canonicalizer := by
    induction calls using List.reverseRecOn with
    | nil => rfl
    | append_singleton calls call ih =>
      rw [← ih, ingestAll, List.foldl_append]
      rfl
  show Canonicalizer.canonicalize _ _ _ = _
  rw [kept, canonicalForm]

/-- A content is found when something with its canonical form was ingested, exactly when nothing was, or when
a content with the digest of its own text was. -/
theorem checkDuplicate_canonical_iff (content : Json) :
    ((∃ call ∈ calls, canonicalForm env call.1.content = canonicalForm env content) →
      ((ingestAll env .new calls).checkDuplicate env content).isSome) ↔
      (∀ call ∈ calls, canonicalForm env call.1.content ≠ canonicalForm env content) ∨
        ∃ call ∈ calls, env.digest call.1.content.toVec = env.digest content.toVec := by
  rw [checkDuplicate_ingestAll, imp_iff_not_or]
  simp only [not_exists, not_and, ne_eq]

/-- The SHA-256 digest of `"Rust"` with its quotes. -/
def upperDigest : Vector UInt8 32 :=
  ⟨#[248, 120, 44, 90, 126, 62, 103, 79, 43, 46, 215, 227, 60, 100, 120, 133, 141, 56, 22, 189, 210, 186, 76,
    217, 252, 4, 242, 179, 128, 76, 36, 42], rfl⟩

/-- The SHA-256 digest of `"rust"` with its quotes. -/
def lowerDigest : Vector UInt8 32 :=
  ⟨#[230, 192, 58, 197, 77, 194, 191, 199, 97, 61, 32, 201, 9, 244, 132, 92, 50, 92, 144, 154, 217, 110, 9,
    165, 177, 214, 88, 226, 57, 100, 92, 82], rfl⟩

/-- Two digests, and the lower case of one text. -/
def sampleEnv : Env where
  digest bytes := if bytes = (Json.str "Rust").toVec then upperDigest else lowerDigest
  toLowercase s := if s = "Rust" then "rust" else s

/-- A piece of knowledge. -/
def rustKnowledge : Knowledge := ⟨.ofNat 1, "language", .str "Rust", .finite ⟨false, 9, -1⟩, [], ∅⟩

/-- `"rust"` has the canonical form of the ingested `"Rust"`, and is no duplicate. -/
theorem checkDuplicate_misses :
    canonicalForm sampleEnv rustKnowledge.content = canonicalForm sampleEnv (.str "rust") ∧
      (ingestAll sampleEnv .new [(rustKnowledge, fun _ => 0)]).checkDuplicate sampleEnv (.str "rust") =
        none := by
  refine ⟨rfl, Option.not_isSome_iff_eq_none.1 fun found => ?_⟩
  obtain ⟨call, hcall, same⟩ := (checkDuplicate_ingestAll _).1 found
  rw [List.mem_singleton.1 hcall] at same
  have texts : (Json.str "rust").toVec ≠ (Json.str "Rust").toVec := by decide +kernel
  simp only [sampleEnv, rustKnowledge, if_true, if_neg texts] at same
  exact absurd same (by decide)

end TORdex.KnowledgeBase
