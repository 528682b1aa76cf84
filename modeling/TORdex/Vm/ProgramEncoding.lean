import TORdex.Core.JsonText
import TORdex.Vm.Instruction

/-!
# Encoded programs

A program is a header with three counts of four bytes, the words of its instructions, and the texts of its
constants one right after the other.  How a float is written is left to the JSON library.
-/

namespace TORdex.Vm

open LittleEndian Json

variable {write : Decimal → String}

/-- The bytes of some instructions. -/
def words (instructions : List Instruction) : List UInt8 := instructions.flatMap fun i => i.encode.toList

namespace Program

/-- `const_data`. -/
def constData (write : Decimal → String) (p : Program) : List UInt8 := p.constants.flatMap (toVecWith write)

/-- Encode the program as raw bytes. -/
def encode (write : Decimal → String) (p : Program) : List UInt8 :=
  [0x54, 0x56, 0x4D, 0x00] ++ (toBytes 4 p.instructions.length ++ (toBytes 4 p.entryPoint ++
    (toBytes 4 (p.constData write).length ++ (words p.instructions ++ p.constData write))))

/-- The programs have the same instructions, entry point and constants. -/
def Same (p q : Program) : Prop :=
  p.instructions = q.instructions ∧ p.entryPoint = q.entryPoint ∧ p.constants = q.constants

/-- The programs differ in the entry point by a multiple of `2 ^ 32`, or in the grouping of the digits of adjacent
numbers among the constants. -/
def Regroups (write : Decimal → String) (p q : Program) : Prop :=
  p.instructions = q.instructions ∧ Regrouped write p.constants q.constants ∧
    (p.entryPoint ≠ q.entryPoint ∨ p.constants ≠ q.constants)

/-- A multiple of `2 ^ 32` instructions of one program stands in the constants of the other. -/
def Absorbs (write : Decimal → String) (p q : Program) : Prop :=
  ∃ extra, extra ≠ [] ∧ 2 ^ 32 ∣ extra.length ∧ q.instructions = p.instructions ++ extra ∧
    p.constData write = words extra ++ q.constData write

/-- Programs that are not the same and have one encoding. -/
def Confusable (write : Decimal → String) (p q : Program) : Prop :=
  p.entryPoint % 2 ^ 32 = q.entryPoint % 2 ^ 32 ∧ (Regroups write p q ∨ Absorbs write p q ∨ Absorbs write q p)

end Program

/-! ## Words -/

@[simp] theorem words_append (a b : List Instruction) : words (a ++ b) = words a ++ words b := List.flatMap_append

theorem length_words (instructions : List Instruction) : (words instructions).length = 8 * instructions.length := by
  induction instructions with
  | nil => rfl
  | cons i rest ih =>
    show (i.encode.toList ++ words rest).length = _
    rw [List.length_append, ih, Vector.length_toList, List.length_cons]
    omega

theorem encode_toList_inj {i j : Instruction} (h : i.encode.toList = j.encode.toList) : i = j := by
  have same : i.encode = j.encode := Vector.toList_inj.1 h
  have read := (Instruction.decode_eq_some_iff i j.encode).2 same
  rw [(Instruction.decode_eq_some_iff j j.encode).2 rfl] at read
  exact (Option.some_inj.1 read).symm

/-- Bytes that begin with the words of one list and of a list that is no shorter. -/
theorem words_append_eq {a b : List Instruction} (order : a.length ≤ b.length) {s t : List UInt8}
    (h : words a ++ s = words b ++ t) : ∃ extra, b = a ++ extra ∧ s = words extra ++ t := by
  induction a generalizing b with
  | nil => exact ⟨b, rfl, h⟩
  | cons i a ih =>
    cases b with
    | nil => simp at order
    | cons j b =>
      have step : i.encode.toList ++ (words a ++ s) = j.encode.toList ++ (words b ++ t) := by
        simpa [words] using h
      obtain ⟨word, rest⟩ := List.append_inj step (by simp)
      obtain rfl := encode_toList_inj word
      obtain ⟨extra, rfl, eq⟩ := ih (Nat.le_of_succ_le_succ order) rest
      exact ⟨extra, rfl, eq⟩

/-! ## Texts and bytes -/

theorem toList_byteArray (bytes : ByteArray) : bytes.toList = bytes.data.toList := by
  have loop : ∀ i r, ByteArray.toList.loop bytes i r = r.reverse ++ bytes.data.toList.drop i := by
    intro i r
    fun_induction ByteArray.toList.loop bytes i r with
    | case1 i r h ih =>
      have inside : i < bytes.data.toList.length := by simpa using h
      rw [ih, List.drop_eq_getElem_cons inside]
      simp [ByteArray.get!, getElem!_pos bytes.data i (by simpa using inside)]
    | case2 i r h =>
      have past : bytes.data.toList.length ≤ i := by simpa using h
      rw [List.drop_eq_nil_of_le past, List.append_nil]
  exact loop 0 []

/-- The bytes of texts in a row are those of one text. -/
theorem flatMap_toVec (zs : List Json) :
    zs.flatMap (toVecWith write) = (String.ofList (zs.flatMap (text write))).toByteArray.data.toList := by
  induction zs with
  | nil => simp
  | cons z zs ih =>
    have whole : String.ofList ((z :: zs).flatMap (text write)) =
        z.renderWith write ++ String.ofList (zs.flatMap (text write)) := by
      rw [List.flatMap_cons, String.ofList_append, text, String.ofList_toList]
    rw [List.flatMap_cons, ih, whole, String.toByteArray_append, ByteArray.toList_data_append, toVecWith,
      toList_byteArray]
    rfl

/-- Texts have the same bytes only when they are the same. -/
theorem flatMap_toVec_eq_iff (xs ys : List Json) :
    xs.flatMap (toVecWith write) = ys.flatMap (toVecWith write) ↔
      xs.flatMap (text write) = ys.flatMap (text write) := by
  rw [flatMap_toVec, flatMap_toVec, Array.toList_inj]
  constructor
  · intro h
    exact String.ofList_inj.1 (String.toByteArray_inj.1 (ByteArray.ext h))
  · intro h
    rw [h]

/-! ## Headers -/

theorem toBytes_mod (width n : ℕ) : toBytes width (n % 256 ^ width) = toBytes width n := by
  have back := toBytes_ofBytes (toBytes width n)
  rwa [length_toBytes, ofBytes_toBytes] at back

/-- Four bytes keep a count modulo `2 ^ 32`. -/
theorem toBytes_four_eq_iff (n m : ℕ) : toBytes 4 n = toBytes 4 m ↔ n % 2 ^ 32 = m % 2 ^ 32 := by
  constructor
  · intro h
    have number := congrArg ofBytes h
    rwa [ofBytes_toBytes, ofBytes_toBytes] at number
  · intro h
    rw [← toBytes_mod 4 n, ← toBytes_mod 4 m]
    exact congrArg (toBytes 4) h

namespace Program

variable {p q : Program}

/-- What the encoding keeps of a program. -/
theorem encode_eq_iff_parts : p.encode write = q.encode write ↔
    p.instructions.length % 2 ^ 32 = q.instructions.length % 2 ^ 32 ∧
    p.entryPoint % 2 ^ 32 = q.entryPoint % 2 ^ 32 ∧
    words p.instructions ++ p.constData write = words q.instructions ++ q.constData write := by
  have header : ∀ {n m : ℕ} {s t : List UInt8}, toBytes 4 n ++ s = toBytes 4 m ++ t ↔
      n % 2 ^ 32 = m % 2 ^ 32 ∧ s = t := by
    intro n m s t
    rw [← toBytes_four_eq_iff]
    constructor
    · exact fun h => List.append_inj h (by simp)
    · rintro ⟨h, rfl⟩
      rw [h]
  unfold encode
  rw [List.append_cancel_left_eq, header, header, header]
  refine and_congr_right fun count => and_congr_right fun _ => ⟨And.right, fun h => ⟨?_, h⟩⟩
  -- the length of the constants follows from the rest
  have length := congrArg List.length h
  rw [List.length_append, List.length_append, length_words, length_words] at length
  omega

theorem encode_eq_of_absorbs (entry : p.entryPoint % 2 ^ 32 = q.entryPoint % 2 ^ 32) (h : Absorbs write p q) :
    p.encode write = q.encode write := by
  obtain ⟨extra, -, ⟨k, length⟩, instructions, constants⟩ := h
  refine encode_eq_iff_parts.2 ⟨?_, entry, ?_⟩
  · rw [instructions, List.length_append, length]
    omega
  · rw [instructions, constants, words_append, List.append_assoc]

theorem Same.symm (h : Same p q) : Same q p := ⟨h.1.symm, h.2.1.symm, h.2.2.symm⟩

theorem confusable_of_encode (floats : WritesFloats write) (hp : ∀ c ∈ p.constants, c.Shortest)
    (hq : ∀ c ∈ q.constants, c.Shortest) (order : p.instructions.length ≤ q.instructions.length)
    (differ : ¬ Same p q) (h : p.encode write = q.encode write) :
    p.entryPoint % 2 ^ 32 = q.entryPoint % 2 ^ 32 ∧ (Regroups write p q ∨ Absorbs write p q) := by
  obtain ⟨count, entry, body⟩ := encode_eq_iff_parts.1 h
  obtain ⟨extra, instructions, constants⟩ := words_append_eq order body
  refine ⟨entry, ?_⟩
  rcases List.eq_nil_or_concat extra with rfl | ⟨init, last, rfl⟩
  · rw [List.append_nil] at instructions
    have texts := (flatMap_toVec_eq_iff _ _).1 constants
    refine .inl ⟨instructions.symm, regrouped_of_flatMap floats hp hq texts, ?_⟩
    by_contra same
    rw [not_or, not_not, not_not] at same
    exact differ ⟨instructions.symm, same⟩
  · refine .inr ⟨_, by simp, ?_, instructions, constants⟩
    rw [instructions, List.length_append] at count
    omega

theorem encode_of_confusable (h : Confusable write p q) : p.encode write = q.encode write := by
  obtain ⟨entry, ⟨instructions, regrouped, -⟩ | absorbs | absorbs⟩ := h
  · refine encode_eq_iff_parts.2 ⟨by rw [instructions], entry, ?_⟩
    rw [instructions]
    exact congrArg _ ((flatMap_toVec_eq_iff _ _).2 regrouped.flatMap_text)
  · exact encode_eq_of_absorbs entry absorbs
  · exact (encode_eq_of_absorbs entry.symm absorbs).symm

theorem not_same_of_absorbs (h : Absorbs write p q) : ¬ Same p q := by
  obtain ⟨extra, nonempty, -, instructions, -⟩ := h
  rintro ⟨same, -⟩
  rw [same] at instructions
  exact nonempty (List.self_eq_append_right.1 instructions)

theorem not_same_of_confusable (h : Confusable write p q) : ¬ Same p q := by
  obtain ⟨-, ⟨-, -, differ⟩ | absorbs | absorbs⟩ := h
  · rintro ⟨-, entry, constants⟩
    exact differ.elim (fun h => h entry) fun h => h constants
  · exact not_same_of_absorbs absorbs
  · exact fun same => not_same_of_absorbs absorbs same.symm

/-- The encodings of two programs that differ are different unless the programs are confusable. -/
theorem encode_injective_iff (floats : WritesFloats write) (p q : Program) (hp : ∀ c ∈ p.constants, c.Shortest)
    (hq : ∀ c ∈ q.constants, c.Shortest) :
    (¬ Same p q → p.encode write ≠ q.encode write) ↔ ¬ Confusable write p q := by
  constructor
  · exact fun h confusable => h (not_same_of_confusable confusable) (encode_of_confusable confusable)
  · intro h differ same
    rcases Nat.le_total p.instructions.length q.instructions.length with order | order
    · obtain ⟨entry, regroups | absorbs⟩ := confusable_of_encode floats hp hq order differ same
      · exact h ⟨entry, .inl regroups⟩
      · exact h ⟨entry, .inr (.inl absorbs)⟩
    · obtain ⟨entry, ⟨instructions, -⟩ | absorbs⟩ :=
        confusable_of_encode floats hq hp order (fun h => differ h.symm) same.symm
      · obtain ⟨entry, regroups | absorbs⟩ := confusable_of_encode floats hp hq (by rw [instructions]) differ same
        · exact h ⟨entry, .inl regroups⟩
        · exact h ⟨entry, .inr (.inl absorbs)⟩
      · exact h ⟨entry.symm, .inr (.inr absorbs)⟩

/-- A program with nothing but constants. -/
def ofConstants (constants : List Json) : Program := { new "constants" with constants }

theorem encode_injective_sample :
    (¬ Same (ofConstants [.int 1, .float ⟨false, 25, -1⟩]) (ofConstants [.str "12.5"]) →
      (ofConstants [.int 1, .float ⟨false, 25, -1⟩]).encode renderDecimal ≠
        (ofConstants [.str "12.5"]).encode renderDecimal) ↔
    ¬ Confusable renderDecimal (ofConstants [.int 1, .float ⟨false, 25, -1⟩]) (ofConstants [.str "12.5"]) :=
  encode_injective_iff writesFloats_renderDecimal _ _ (by simp [ofConstants, Json.Shortest, Decimal.Shortest])
    (by simp [ofConstants, Json.Shortest])

/-- The constants `1, 23` and `12, 3` are one text, however floats are written. -/
theorem not_encode_injective : ¬ ∃ write, WritesFloats write ∧ ∀ p q : Program, (∀ c ∈ p.constants, c.Shortest) →
    (∀ c ∈ q.constants, c.Shortest) → ¬ Same p q → p.encode write ≠ q.encode write := by
  rintro ⟨write, -, h⟩
  have chars : [.int 1, .int 23].flatMap (text write) = [.int 12, .int 3].flatMap (text write) := by
    simp only [text, renderWith, List.flatMap_cons, List.flatMap_nil]
    decide
  have regrouped : Regrouped write [.int 1, .int 23] [.int 12, .int 3] :=
    .numbers [.int 1, .int 23] [.int 12, .int 3] (by simp [isNumber]) (by simp [isNumber]) chars .nil
  have confusable : Confusable write (ofConstants [.int 1, .int 23]) (ofConstants [.int 12, .int 3]) :=
    ⟨rfl, .inl ⟨rfl, regrouped, .inr (by simp [ofConstants])⟩⟩
  exact h _ _ (by simp [ofConstants, Json.Shortest]) (by simp [ofConstants, Json.Shortest])
    (not_same_of_confusable confusable) (encode_of_confusable confusable)

end Program

end TORdex.Vm
