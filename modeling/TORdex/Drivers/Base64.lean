import Mathlib.Data.List.DropRight
import Mathlib.Data.Nat.Bitwise
import TORdex.Lib.KeyedStore
import TORdex.Lib.Bytes

/-!
# Base64 of the filesystem driver

The encoder and the decoder work on groups of three bytes and of four characters, which they pack into one word by
shifts.  A panic is `none`.
-/

namespace TORdex.FilesystemDriver

open KeyedStore Sextets

/-! ## The encoder -/

/-- `encode_six`.  Other values are unreachable. -/
def encodeSix (val : ℕ) : Option Char :=
  if val ≤ 25 then some (Char.ofNat ('A'.toNat + val))
  else if val ≤ 51 then some (Char.ofNat ('a'.toNat + val - 26))
  else if val ≤ 61 then some (Char.ofNat ('0'.toNat + val - 52))
  else if val = 62 then some '+'
  else if val = 63 then some '/'
  else none

/-- The four characters of a group. -/
def encodeChunk (b0 : UInt8) (b1 b2 : Option UInt8) : Option (List Char) := do
  let triple := b0.toNat <<< 16 ||| (b1.getD 0).toNat <<< 8 ||| (b2.getD 0).toNat
  let c0 ← encodeSix (triple >>> 18)
  let c1 ← encodeSix ((triple >>> 12) &&& 0x3F)
  let c2 ← if b1.isSome then encodeSix ((triple >>> 6) &&& 0x3F) else some '='
  let c3 ← if b2.isSome then encodeSix (triple &&& 0x3F) else some '='
  return [c0, c1, c2, c3]

/-- The characters of some bytes, with padding. -/
def base64Encode : List UInt8 → Option (List Char)
  | b0 :: b1 :: b2 :: rest => do
    let chars ← encodeChunk b0 (some b1) (some b2)
    let more ← base64Encode rest
    return chars ++ more
  | [b0, b1] => encodeChunk b0 (some b1) none
  | [b0] => encodeChunk b0 none none
  | [] => some []

/-! ## The decoder -/

/-- The six bits of a character. -/
def decodeSix (c : Char) : Option ℕ :=
  if 'A' ≤ c ∧ c ≤ 'Z' then some (c.toNat - 'A'.toNat)
  else if 'a' ≤ c ∧ c ≤ 'z' then some (c.toNat - 'a'.toNat + 26)
  else if '0' ≤ c ∧ c ≤ '9' then some (c.toNat - '0'.toNat + 52)
  else if c = '+' then some 62
  else if c = '/' then some 63
  else none

/-- The loop over the characters of a group, from number `i` on. -/
def accumulate : ℕ → ℕ → List Char → Except String ℕ
  | _, accum, [] => .ok accum
  | i, accum, c :: chunk =>
    match decodeSix c with
    | none => .error ("invalid base64 char: " ++ String.singleton c)
    | some val => accumulate (i + 1) (accum ||| val <<< (6 * (3 - i))) chunk

/-- The bytes of up to four characters. -/
def decodeChunk (chunk : List Char) : Except String (List UInt8) := do
  let accum ← accumulate 0 0 chunk
  return [UInt8.ofNat (accum >>> 16)] ++
    (if chunk.length > 2 then [UInt8.ofNat ((accum >>> 8) &&& 0xFF)] else []) ++
    if chunk.length > 3 then [UInt8.ofNat (accum &&& 0xFF)] else []

/-- The bytes of the characters, four at a time. -/
def decodeChunks : List Char → Except String (List UInt8)
  | a :: b :: c :: d :: rest => do
    let out ← decodeChunk [a, b, c, d]
    let more ← decodeChunks rest
    return out ++ more
  | [] => .ok []
  | chunk => decodeChunk chunk

/-- `trim_end_matches('=')`. -/
def unpadded (input : List Char) : List Char := input.rdropWhile (· = '=')

/-- The bytes of a text, whose padding is passed over. -/
def base64Decode (input : List Char) : Except String (List UInt8) := decodeChunks (unpadded input)

/-! ## Characters and digits -/

theorem encodeSix_isSome {v : ℕ} (small : v < 64) : ∃ c, encodeSix v = some c ∧ decodeSix c = some v := by
  have all : ∀ v : Fin 64, (encodeSix v.val).bind decodeSix = some v.val := by decide
  exact Option.bind_eq_some_iff.1 (all ⟨v, small⟩)

theorem encodeSix_of_decodeSix {v : ℕ} {c : Char} (h : decodeSix c = some v) : v < 64 ∧ encodeSix v = some c := by
  have le (a b : Char) : a ≤ b ↔ a.toNat ≤ b.toNat := Iff.rfl
  have back (n : ℕ) (h : n = c.toNat) : Char.ofNat n = c := by rw [h, Char.ofNat_toNat]
  have codes : 'A'.toNat = 65 ∧ 'Z'.toNat = 90 ∧ 'a'.toNat = 97 ∧ 'z'.toNat = 122 ∧ '0'.toNat = 48 ∧
      '9'.toNat = 57 := by
    decide
  obtain ⟨hA, hZ, ha, hz, h0, h9⟩ := codes
  unfold decodeSix at h
  unfold encodeSix
  simp only [le, hA, hZ, ha, hz, h0, h9] at h ⊢
  split_ifs at h with upper lower digit plus slash
  · obtain rfl := Option.some.inj h
    rw [if_pos (by omega), back _ (by omega)]
    exact ⟨by omega, rfl⟩
  · obtain rfl := Option.some.inj h
    rw [if_neg (by omega), if_pos (by omega), back _ (by omega)]
    exact ⟨by omega, rfl⟩
  · obtain rfl := Option.some.inj h
    rw [if_neg (by omega), if_neg (by omega), if_pos (by omega), back _ (by omega)]
    exact ⟨by omega, rfl⟩
  · obtain rfl := Option.some.inj h
    exact ⟨by decide, by rw [plus]; rfl⟩
  · obtain rfl := Option.some.inj h
    exact ⟨by decide, by rw [slash]; rfl⟩

theorem not_pad {v : ℕ} {c : Char} (h : decodeSix c = some v) : c ≠ '=' := by
  rintro rfl
  cases h

/-! ## Words -/

/-- A digit below the others. -/
theorem or_digit {v : ℕ} (small : v < 64) (x k : ℕ) : x <<< (k + 6) ||| v <<< k = (x * 64 + v) <<< k := by
  have shifted : x <<< (k + 6) = (x <<< 6) <<< k := by rw [Nat.add_comm, Nat.shiftLeft_add]
  rw [shifted, ← Nat.shiftLeft_or_distrib, ← Nat.shiftLeft_add_eq_or_of_lt (i := 6) small, Nat.shiftLeft_eq x]

theorem pack (b0 b1 b2 : UInt8) :
    b0.toNat <<< 16 ||| b1.toNat <<< 8 ||| b2.toNat = b0.toNat * 65536 + b1.toNat * 256 + b2.toNat := by
  have h1 := b1.toNat_lt
  have h2 := b2.toNat_lt
  have high : b0.toNat <<< 16 ||| b1.toNat <<< 8 = (b0.toNat * 256 + b1.toNat) <<< 8 := by
    have shifted : b0.toNat <<< 16 = (b0.toNat <<< 8) <<< 8 := by rw [← Nat.shiftLeft_add]
    rw [shifted, ← Nat.shiftLeft_or_distrib, ← Nat.shiftLeft_add_eq_or_of_lt (i := 8) (by omega),
      Nat.shiftLeft_eq b0.toNat]
  rw [high, ← Nat.shiftLeft_add_eq_or_of_lt (i := 8) (by omega), Nat.shiftLeft_eq]
  omega

theorem digit_at (word k : ℕ) : (word >>> k) &&& 0x3F = word / 2 ^ k % 64 := by
  rw [Nat.shiftRight_eq_div_pow]
  exact Nat.and_two_pow_sub_one_eq_mod _ 6

/-! ## What the encoder writes -/

theorem encodeChunk_eq (b0 : UInt8) (b1 b2 : Option UInt8) : encodeChunk b0 b1 b2 = do
    let c0 ← encodeSix (b0.toNat / 4)
    let c1 ← encodeSix (b0.toNat % 4 * 16 + (b1.getD 0).toNat / 16)
    let c2 ← if b1.isSome then encodeSix ((b1.getD 0).toNat % 16 * 4 + (b2.getD 0).toNat / 64) else some '='
    let c3 ← if b2.isSome then encodeSix ((b2.getD 0).toNat % 64) else some '='
    return [c0, c1, c2, c3] := by
  have h0 := b0.toNat_lt
  have h1 := (b1.getD 0).toNat_lt
  have h2 := (b2.getD 0).toNat_lt
  unfold encodeChunk
  dsimp only
  rw [pack, digit_at, digit_at, Nat.shiftRight_eq_div_pow, Nat.and_two_pow_sub_one_eq_mod _ 6]
  generalize (b1.getD 0).toNat = n1 at *
  generalize (b2.getD 0).toNat = n2 at *
  have first : (b0.toNat * 65536 + n1 * 256 + n2) / 2 ^ 18 = b0.toNat / 4 := by omega
  have second : (b0.toNat * 65536 + n1 * 256 + n2) / 2 ^ 12 % 64 = b0.toNat % 4 * 16 + n1 / 16 := by omega
  have third : (b0.toNat * 65536 + n1 * 256 + n2) / 2 ^ 6 % 64 = n1 % 16 * 4 + n2 / 64 := by omega
  have fourth : (b0.toNat * 65536 + n1 * 256 + n2) % 2 ^ 6 = n2 % 64 := by omega
  rw [first, second, third, fourth]

/-- The digits of the bytes, and padding. -/
def Writes (bs : List UInt8) (chars : Option (List Char)) : Prop :=
  ∃ body k, chars = some (body ++ List.replicate k '=') ∧
    body.mapM decodeSix = some (digits (bs.map UInt8.toNat))

section Encoder

variable (b0 b1 b2 : UInt8)

theorem encodeChunk_three : ∃ chars, encodeChunk b0 (some b1) (some b2) = some chars ∧
    chars.mapM decodeSix = some (digits [b0.toNat, b1.toNat, b2.toNat]) := by
  have h0 := b0.toNat_lt
  have h1 := b1.toNat_lt
  have h2 := b2.toNat_lt
  obtain ⟨c0, e0, d0⟩ := encodeSix_isSome (v := b0.toNat / 4) (by omega)
  obtain ⟨c1, e1, d1⟩ := encodeSix_isSome (v := b0.toNat % 4 * 16 + b1.toNat / 16) (by omega)
  obtain ⟨c2, e2, d2⟩ := encodeSix_isSome (v := b1.toNat % 16 * 4 + b2.toNat / 64) (by omega)
  obtain ⟨c3, e3, d3⟩ := encodeSix_isSome (v := b2.toNat % 64) (by omega)
  refine ⟨[c0, c1, c2, c3], ?_, by simp [digits, d0, d1, d2, d3]⟩
  rw [encodeChunk_eq]
  simp [e0, e1, e2, e3]

theorem encodeChunk_two : Writes [b0, b1] (encodeChunk b0 (some b1) none) := by
  have h0 := b0.toNat_lt
  have h1 := b1.toNat_lt
  obtain ⟨c0, e0, d0⟩ := encodeSix_isSome (v := b0.toNat / 4) (by omega)
  obtain ⟨c1, e1, d1⟩ := encodeSix_isSome (v := b0.toNat % 4 * 16 + b1.toNat / 16) (by omega)
  obtain ⟨c2, e2, d2⟩ := encodeSix_isSome (v := b1.toNat % 16 * 4) (by omega)
  refine ⟨[c0, c1, c2], 1, ?_, by simp [digits, d0, d1, d2]⟩
  rw [encodeChunk_eq]
  simp [e0, e1, e2]

theorem encodeChunk_one : Writes [b0] (encodeChunk b0 none none) := by
  have h0 := b0.toNat_lt
  obtain ⟨c0, e0, d0⟩ := encodeSix_isSome (v := b0.toNat / 4) (by omega)
  obtain ⟨c1, e1, d1⟩ := encodeSix_isSome (v := b0.toNat % 4 * 16) (by omega)
  refine ⟨[c0, c1], 2, ?_, by simp [digits, d0, d1]⟩
  rw [encodeChunk_eq]
  simp [e0, e1]

theorem base64Encode_writes (bs : List UInt8) : Writes bs (base64Encode bs) := by
  induction bs using base64Encode.induct with
  | case1 b0 b1 b2 rest ih =>
    obtain ⟨chars, eq, read⟩ := encodeChunk_three b0 b1 b2
    obtain ⟨body, k, eq', read'⟩ := ih
    refine ⟨chars ++ body, k, ?_, ?_⟩
    · rw [base64Encode, eq, eq']
      simp
    · rw [List.mapM_append, read, read']
      simp [digits]
  | case2 b0 b1 => exact encodeChunk_two b0 b1
  | case3 b0 => exact encodeChunk_one b0
  | case4 => exact ⟨[], 0, rfl, rfl⟩

end Encoder

theorem read_cons {c : Char} {chars : List Char} {vs : List ℕ} :
    (c :: chars).mapM decodeSix = some vs ↔
      ∃ v rest, vs = v :: rest ∧ decodeSix c = some v ∧ chars.mapM decodeSix = some rest := by
  rw [List.mapM_cons]
  cases decodeSix c <;> cases chars.mapM decodeSix <;> simp [eq_comm]

theorem read_mem {body : List Char} {vs : List ℕ} (read : body.mapM decodeSix = some vs) {c : Char} (mem : c ∈ body) :
    ∃ v, decodeSix c = some v := by
  induction body generalizing vs with
  | nil => cases mem
  | cons first body ih =>
    obtain ⟨v, rest, -, here, read⟩ := read_cons.1 read
    rcases List.mem_cons.1 mem with rfl | mem
    · exact ⟨v, here⟩
    · exact ih read mem

theorem read_lt {chars : List Char} {vs : List ℕ} (read : chars.mapM decodeSix = some vs) : ∀ v ∈ vs, v < 64 := by
  induction chars generalizing vs with
  | nil => simp_all
  | cons c chars ih =>
    obtain ⟨v, rest, rfl, here, read⟩ := read_cons.1 read
    exact List.forall_mem_cons.2 ⟨(encodeSix_of_decodeSix here).1, ih read⟩

/-- Characters of the same digits are the same. -/
theorem read_injective {chars chars' : List Char} {vs : List ℕ} (read : chars.mapM decodeSix = some vs)
    (read' : chars'.mapM decodeSix = some vs) : chars = chars' := by
  induction chars generalizing chars' vs with
  | nil =>
    obtain rfl : [] = vs := by simpa using read
    cases chars' with
    | nil => rfl
    | cons c chars' =>
      obtain ⟨_, _, none, -⟩ := read_cons.1 read'
      cases none
  | cons c chars ih =>
    obtain ⟨v, rest, rfl, here, read⟩ := read_cons.1 read
    cases chars' with
    | nil => simp at read'
    | cons c' chars' =>
      obtain ⟨v', rest', same, here', read'⟩ := read_cons.1 read'
      obtain ⟨rfl, rfl⟩ := List.cons.inj same
      have first : some c = some c' := (encodeSix_of_decodeSix here).2.symm.trans (encodeSix_of_decodeSix here').2
      rw [Option.some.inj first, ih read read']

theorem unpadded_of_read {body : List Char} {vs : List ℕ} (read : body.mapM decodeSix = some vs) (k : ℕ) :
    unpadded (body ++ List.replicate k '=') = body := by
  induction k with
  | zero =>
    rw [List.replicate_zero, List.append_nil, unpadded, List.rdropWhile_eq_self_iff]
    intro nonempty
    obtain ⟨v, here⟩ := read_mem read (List.getLast_mem nonempty)
    simpa using not_pad here
  | succ k ih =>
    rw [List.replicate_succ', ← List.append_assoc, unpadded, List.rdropWhile_concat_pos _ _ _ (by simp)]
    exact ih

/-! ## What the decoder reads -/

theorem accumulate_cons {c : Char} {v i : ℕ} (h : decodeSix c = some v) (inside : i < 4) (x : ℕ) (chunk : List Char) :
    accumulate i (x <<< (6 * (4 - i))) (c :: chunk) =
      accumulate (i + 1) ((x * 64 + v) <<< (6 * (4 - (i + 1)))) chunk := by
  have width : 6 * (4 - i) = 6 * (3 - i) + 6 := by omega
  have width' : 6 * (4 - (i + 1)) = 6 * (3 - i) := by omega
  rw [accumulate, h, width, width', ← or_digit (encodeSix_of_decodeSix h).1]

theorem decodeChunk_eq {chunk : List Char} {word : ℕ} (h : accumulate 0 0 chunk = .ok word) :
    decodeChunk chunk = .ok ([UInt8.ofNat (word / 65536)] ++
      (if chunk.length > 2 then [UInt8.ofNat (word / 256 % 256)] else []) ++
      if chunk.length > 3 then [UInt8.ofNat (word % 256)] else []) := by
  have low (x : ℕ) : x &&& 0xFF = x % 256 := Nat.and_two_pow_sub_one_eq_mod x 8
  rw [decodeChunk, h]
  simp only [low, Nat.shiftRight_eq_div_pow]
  rfl

/-- A group of up to four digits. -/
theorem decodeChunk_of_read {chunk : List Char} {vs : List ℕ} (read : chunk.mapM decodeSix = some vs)
    (nonempty : chunk ≠ []) (group : chunk.length ≤ 4) : decodeChunk chunk = .ok ((bytes vs).map UInt8.ofNat) := by
  have start : accumulate 0 0 chunk = accumulate 0 (0 <<< (6 * (4 - 0))) chunk := by rw [Nat.zero_shiftLeft]
  have small := read_lt read
  match chunk with
  | [] => exact absurd rfl nonempty
  | [a] =>
    obtain ⟨va, vs, rfl, ha, read⟩ := read_cons.1 read
    obtain rfl : [] = vs := by simpa using read
    rw [accumulate_cons ha (by decide), accumulate, Nat.shiftLeft_eq] at start
    have first : (0 * 64 + va) * 2 ^ (6 * (4 - (0 + 1))) / 65536 = va * 4 := by omega
    rw [decodeChunk_eq start, first]
    rfl
  | [a, b] =>
    obtain ⟨va, vs, rfl, ha, read⟩ := read_cons.1 read
    obtain ⟨vb, vs, rfl, hb, read⟩ := read_cons.1 read
    obtain rfl : [] = vs := by simpa using read
    rw [accumulate_cons ha (by decide), accumulate_cons hb (by decide), accumulate, Nat.shiftLeft_eq] at start
    have first : ((0 * 64 + va) * 64 + vb) * 2 ^ (6 * (4 - (0 + 1 + 1))) / 65536 = va * 4 + vb / 16 := by omega
    rw [decodeChunk_eq start, first]
    rfl
  | [a, b, c] =>
    obtain ⟨va, vs, rfl, ha, read⟩ := read_cons.1 read
    obtain ⟨vb, vs, rfl, hb, read⟩ := read_cons.1 read
    obtain ⟨vc, vs, rfl, hc, read⟩ := read_cons.1 read
    obtain rfl : [] = vs := by simpa using read
    simp only [List.forall_mem_cons] at small
    rw [accumulate_cons ha (by decide), accumulate_cons hb (by decide), accumulate_cons hc (by decide), accumulate,
      Nat.shiftLeft_eq] at start
    set word := (((0 * 64 + va) * 64 + vb) * 64 + vc) * 2 ^ (6 * (4 - (0 + 1 + 1 + 1))) with hword
    have first : word / 65536 = va * 4 + vb / 16 := by omega
    have second : word / 256 % 256 = vb % 16 * 16 + vc / 4 := by omega
    rw [decodeChunk_eq start, first, second]
    rfl
  | [a, b, c, d] =>
    obtain ⟨va, vs, rfl, ha, read⟩ := read_cons.1 read
    obtain ⟨vb, vs, rfl, hb, read⟩ := read_cons.1 read
    obtain ⟨vc, vs, rfl, hc, read⟩ := read_cons.1 read
    obtain ⟨vd, vs, rfl, hd, read⟩ := read_cons.1 read
    obtain rfl : [] = vs := by simpa using read
    simp only [List.forall_mem_cons] at small
    rw [accumulate_cons ha (by decide), accumulate_cons hb (by decide), accumulate_cons hc (by decide),
      accumulate_cons hd (by decide), accumulate, Nat.shiftLeft_eq] at start
    set word := ((((0 * 64 + va) * 64 + vb) * 64 + vc) * 64 + vd) * 2 ^ (6 * (4 - (0 + 1 + 1 + 1 + 1))) with hword
    have first : word / 65536 = va * 4 + vb / 16 := by omega
    have second : word / 256 % 256 = vb % 16 * 16 + vc / 4 := by omega
    have third : word % 256 = vc % 4 * 64 + vd := by omega
    rw [decodeChunk_eq start, first, second, third]
    rfl
  | _ :: _ :: _ :: _ :: _ :: _ =>
    simp only [List.length_cons] at group
    omega

theorem decodeChunks_of_read {chars : List Char} {vs : List ℕ} (read : chars.mapM decodeSix = some vs) :
    decodeChunks chars = .ok ((bytes vs).map UInt8.ofNat) := by
  induction chars using decodeChunks.induct generalizing vs with
  | case1 a b c d rest ih =>
    obtain ⟨va, vs, rfl, ha, read⟩ := read_cons.1 read
    obtain ⟨vb, vs, rfl, hb, read⟩ := read_cons.1 read
    obtain ⟨vc, vs, rfl, hc, read⟩ := read_cons.1 read
    obtain ⟨vd, vs, rfl, hd, read⟩ := read_cons.1 read
    have group : decodeChunk [a, b, c, d] = .ok ((bytes [va, vb, vc, vd]).map UInt8.ofNat) :=
      decodeChunk_of_read (by simp [ha, hb, hc, hd]) (by simp) (by simp)
    rw [decodeChunks, group, ih read]
    rfl
  | case2 =>
    obtain rfl : [] = vs := by simpa using read
    rfl
  | case3 chunk more some =>
    have group : chunk.length ≤ 4 := by
      match chunk with
      | [] | [_] | [_, _] | [_, _, _] => simp
      | a :: b :: c :: d :: rest => exact absurd rfl (more a b c d rest)
    rw [decodeChunks]
    · exact decodeChunk_of_read read some group
    · exact more
    · exact some

theorem read_of_accumulate {i accum word : ℕ} {chunk : List Char} (h : accumulate i accum chunk = .ok word) :
    ∃ vs, chunk.mapM decodeSix = some vs := by
  induction chunk generalizing i accum with
  | nil => exact ⟨[], rfl⟩
  | cons c chunk ih =>
    rw [accumulate] at h
    cases here : decodeSix c with
    | none =>
      rw [here] at h
      cases h
    | some v =>
      rw [here] at h
      obtain ⟨vs, read⟩ := ih h
      exact ⟨v :: vs, read_cons.2 ⟨v, vs, rfl, here, read⟩⟩

theorem read_of_decodeChunk {chunk : List Char} {out : List UInt8} (h : decodeChunk chunk = .ok out) :
    ∃ vs, chunk.mapM decodeSix = some vs := by
  obtain ⟨word, h, -⟩ := bind_eq_ok.1 h
  exact read_of_accumulate h

/-- What is decoded are characters of digits. -/
theorem read_of_decodeChunks {chars : List Char} {out : List UInt8} (h : decodeChunks chars = .ok out) :
    ∃ vs, chars.mapM decodeSix = some vs := by
  induction chars using decodeChunks.induct generalizing out with
  | case1 a b c d rest ih =>
    obtain ⟨out, group, h⟩ := bind_eq_ok.1 h
    obtain ⟨more, h, -⟩ := bind_eq_ok.1 h
    obtain ⟨vs, read⟩ := read_of_decodeChunk group
    obtain ⟨vs', read'⟩ := ih h
    refine ⟨vs ++ vs', ?_⟩
    show ([a, b, c, d] ++ rest).mapM decodeSix = _
    rw [List.mapM_append, read, read']
    rfl
  | case2 => exact ⟨[], rfl⟩
  | case3 chunk more some =>
    rw [decodeChunks] at h
    · exact read_of_decodeChunk h
    · exact more
    · exact some

/-! ## The codec -/

/-- Characters of digits that are the digits of bytes. -/
def Canonical (chars : List Char) : Prop := ∀ vs, chars.mapM decodeSix = some vs → Exact vs

theorem base64Decode_iff {input : List Char} {out : List UInt8} : base64Decode input = .ok out ↔
    ∃ vs, (unpadded input).mapM decodeSix = some vs ∧ (bytes vs).map UInt8.ofNat = out := by
  constructor
  · intro h
    obtain ⟨vs, read⟩ := read_of_decodeChunks h
    rw [base64Decode, decodeChunks_of_read read] at h
    exact ⟨vs, read, Except.ok.inj h⟩
  · rintro ⟨vs, read, rfl⟩
    exact decodeChunks_of_read read

theorem bytes_small (bs : List UInt8) : ∀ b ∈ bs.map UInt8.toNat, b < 256 := by
  simp only [List.mem_map]
  rintro _ ⟨b, -, rfl⟩
  exact b.toNat_lt

/-- What is encoded is decoded, and a decoded text is an encoded one exactly if no digit is left over and no bit that
belongs to no byte is set. -/
theorem base64_codec_iff (data : List UInt8) (s : List Char) :
    (∃ chars, base64Encode data = some chars ∧ base64Decode chars = .ok data) ∧
      ((∀ d, base64Decode s = .ok d →
          ∃ chars, base64Encode d = some chars ∧ unpadded s = unpadded chars) ↔
        Canonical (unpadded s)) := by
  have back (bs : List UInt8) : (bs.map UInt8.toNat).map UInt8.ofNat = bs := by
    rw [List.map_map]
    exact (List.map_congr_left fun b _ => UInt8.ofNat_toNat).trans (List.map_id bs)
  have forth (vs : List ℕ) (small : ∀ v ∈ vs, v < 256) : (vs.map UInt8.ofNat).map UInt8.toNat = vs := by
    rw [List.map_map]
    refine (List.map_congr_left fun v mem => ?_).trans (List.map_id vs)
    exact UInt8.toNat_ofNat_of_lt (small v mem)
  refine ⟨?_, fun canonical vs read => ?_, fun canonical d h => ?_⟩
  · obtain ⟨body, k, eq, read⟩ := base64Encode_writes data
    refine ⟨_, eq, base64Decode_iff.2 ⟨_, by rw [unpadded_of_read read]; exact read, ?_⟩⟩
    rw [bytes_digits (bytes_small data), back]
  · obtain ⟨chars, eq, same⟩ := canonical _ (base64Decode_iff.2 ⟨vs, read, rfl⟩)
    obtain ⟨body, k, eq', read'⟩ := base64Encode_writes ((bytes vs).map UInt8.ofNat)
    rw [forth _ (bytes_lt (read_lt read))] at read'
    obtain rfl := Option.some.inj (eq.symm.trans eq')
    have small := read_lt read
    rw [same, unpadded_of_read read', read'] at read
    exact (digits_bytes_iff small).1 (Option.some.inj read)
  · obtain ⟨vs, read, rfl⟩ := base64Decode_iff.1 h
    obtain ⟨body, k, eq, read'⟩ := base64Encode_writes ((bytes vs).map UInt8.ofNat)
    rw [forth _ (bytes_lt (read_lt read)), (digits_bytes_iff (read_lt read)).2 (canonical vs read)] at read'
    exact ⟨_, eq, by rw [unpadded_of_read read', read_injective read read']⟩

/-- Of one byte only the first digit. -/
theorem base64Decode_truncated : base64Decode "A".toList = .ok [0] ∧ base64Encode [0] = some "AA==".toList ∧
    unpadded "A".toList ≠ unpadded "AA==".toList := by
  decide

end TORdex.FilesystemDriver
