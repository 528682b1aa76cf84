import Mathlib.Data.List.Forall2
import TORdex.Tdxl.Emission

/-!
# Three registers in turn

The values of a program are numbered in the order in which a register is first asked for, the string
constants before all others; value number `n` gets temporary number `n % 3`.  Here is what the operations
ask for and what they write into the temporaries, and that code generation does the same.
-/

namespace TORdex

open Vm

/-! ## Numbers by first occurrence -/

section Numbers

variable {α : Type*} [DecidableEq α] {l l' : List α} {x : α}

theorem eraseDups_concat :
    (l ++ [x]).eraseDups = if x ∈ l then l.eraseDups else l.eraseDups ++ [x] := by
  rw [List.eraseDups_append]
  split_ifs with h <;> simp [List.removeAll, h, List.eraseDups_cons]

/-- More entries do not change a number. -/
theorem idxOf_eraseDups_append (h : l <+: l') (hx : x ∈ l) :
    l'.eraseDups.idxOf x = l.eraseDups.idxOf x := by
  obtain ⟨more, rfl⟩ := h
  rw [List.eraseDups_append, List.idxOf_append_of_mem (List.mem_eraseDups.2 hx)]

theorem idxOf_eraseDups_concat (h : x ∉ l) : (l ++ [x]).eraseDups.idxOf x = l.eraseDups.length := by
  rw [eraseDups_concat, if_neg h, List.idxOf_append_of_notMem (List.mem_eraseDups.not.2 h)]
  simp

theorem nodup_eraseDups (l : List α) : l.eraseDups.Nodup := by
  induction l using List.reverseRecOn with
  | nil => exact List.nodup_nil
  | append_singleton l x ih =>
    rw [eraseDups_concat]
    split_ifs with h
    · exact ih
    · refine List.nodup_append.2 ⟨ih, List.nodup_singleton x, ?_⟩
      rintro y hy z hz rfl
      rw [List.mem_singleton.1 hz] at hy
      exact h (List.mem_eraseDups.1 hy)

theorem eraseDups_of_nodup (h : l.Nodup) : l.eraseDups = l := by
  induction l using List.reverseRecOn with
  | nil => rfl
  | append_singleton l x ih =>
    obtain ⟨left, -, apart⟩ := List.nodup_append.1 h
    have new : x ∉ l := fun hx => apart x hx x (List.mem_singleton_self x) rfl
    rw [eraseDups_concat, if_neg new, ih left]

end Numbers

/-- The temporary with a number. -/
def temp (n : ℕ) : UInt8 := if n % 3 = 0 then TMP1 else if n % 3 = 1 then TMP2 else TMP3

theorem temp_eq_iff {m n : ℕ} : temp m = temp n ↔ m % 3 = n % 3 := by
  have ne₁ : TMP1 ≠ TMP2 := by decide
  have ne₂ : TMP1 ≠ TMP3 := by decide
  have ne₃ : TMP2 ≠ TMP3 := by decide
  have hm := Nat.mod_lt m (show 3 > 0 by decide)
  have hn := Nat.mod_lt n (show 3 > 0 by decide)
  unfold temp
  constructor
  · split_ifs <;> grind
  · intro h
    rw [h]

theorem isTemp_temp (n : ℕ) : IsTemp (temp n) := by
  unfold temp IsTemp
  split_ifs <;> simp

/-- The next register in turn. -/
theorem temp_succ (n : ℕ) : (if temp n = TMP1 then TMP2 else if temp n = TMP2 then TMP3 else TMP1) =
    temp (n + 1) := by
  have cases : n % 3 = 0 ∨ n % 3 = 1 ∨ n % 3 = 2 := by omega
  rcases cases with h | h | h
  · have next : (n + 1) % 3 = 1 := by omega
    simp [temp, h, next]
  · have next : (n + 1) % 3 = 2 := by omega
    simp only [temp, h, next]
    decide
  · have next : (n + 1) % 3 = 0 := by omega
    simp only [temp, h, next]
    decide

/-! ## What an operation does to the temporaries -/

/-- A write into the temporary with a number: of a string, or of something else. -/
abbrev TempWrite := ℕ × Option String

namespace KirOp

/-- The value that the operation takes from the accumulator. -/
def accInput : KirOp → Option KirValueId
  | observe _ i | classify _ i | loadGraph _ i | filter _ i _ | resolve _ i _ | traverse _ i _ _
  | correlate _ i _ | infer _ i _ | store i _ | exportTo i _ | snapshot _ i _ => some i
  | _ => none

/-- The value that has a register besides: the other operand, or the output of a filter for its text. -/
def placed : KirOp → Option KirValueId
  | collect _ x | sourceEntity _ x | sourceSearch _ x | resolve _ _ x | traverse _ _ x _
  | correlate _ _ x | similar _ x _ | infer _ _ x | timeline _ x | store _ x | exportTo _ x
  | filter x _ _ => some x
  | _ => none

/-- The value whose register is moved to the accumulator, unless it is there already. -/
def moved (acc : Option KirValueId) (op : KirOp) : List KirValueId :=
  match op.accInput with
  | some i => if acc = some i then [] else [i]
  | none => []

/-- The values that a register is asked for when `acc` is in the accumulator. -/
def asks (acc : Option KirValueId) (op : KirOp) : List KirValueId :=
  op.moved acc ++ op.placed.toList

/-- The strings that the operation loads. -/
def texts : KirOp → List String
  | filter _ _ cond => [CodegenEngine.filterJson cond]
  | correlate .. => ["_target"]
  | _ => []

/-- What the operation writes before it reads its other operand. -/
def writesFirst : KirOp → List TempWrite
  | resolve .. => [(0, none)]
  | correlate .. => [(1, some "_target")]
  | _ => []

/-- What the operation writes into the temporaries. -/
def writes (number : KirValueId → ℕ) : KirOp → List TempWrite
  | filter output _ cond => [(0, none), (number output, some (CodegenEngine.filterJson cond))]
  | resolve .. => [(0, none)]
  | correlate .. => [(1, some "_target"), (2, none)]
  | _ => []

/-- The other operand, when an instruction reads its register.  A store ignores the name, and an export
has the number of the register for a kind. -/
def otherRead : KirOp → Option KirValueId
  | collect _ x | sourceEntity _ x | sourceSearch _ x | resolve _ _ x | traverse _ _ x _
  | correlate _ _ x | similar _ x _ | infer _ _ x | timeline _ x => some x
  | _ => none

/-- The values that are read from registers when `acc` is in the accumulator, and what the operation
itself writes before. -/
def tempReads (acc : Option KirValueId) (op : KirOp) : List (List TempWrite × KirValueId) :=
  (op.moved acc).map (Prod.mk []) ++ op.otherRead.toList.map (Prod.mk op.writesFirst)

end KirOp

/-- The value in the accumulator after the operations. -/
def accAfter (acc : Option KirValueId) (ops : List KirOp) : Option KirValueId :=
  ops.foldl (fun acc op => op.accValue.or acc) acc

/-- The values that registers are asked for, in order. -/
def asked (acc : Option KirValueId) : List KirOp → List KirValueId
  | [] => []
  | op :: ops => op.asks acc ++ asked (op.accValue.or acc) ops

theorem asked_append (acc : Option KirValueId) (ops ops' : List KirOp) :
    asked acc (ops ++ ops') = asked acc ops ++ asked (accAfter acc ops) ops' := by
  induction ops generalizing acc with
  | nil => rfl
  | cons op ops ih => rw [List.cons_append, asked, asked, ih, List.append_assoc]; rfl

/-- The string constants. -/
def stringsIn (ops : List KirOp) : List (KirValueId × String) :=
  ops.filterMap fun
    | .constStr output value => some (output, value)
    | _ => none

theorem strings_sublist (ops : List KirOp) :
    ((stringsIn ops).map Prod.fst).Sublist (ops.filterMap KirOp.outputId) := by
  induction ops with
  | nil => exact .slnil
  | cons op ops ih =>
    cases op with
    | constStr o s => exact ih.cons_cons o
    | ret | store | exportTo | sortHint | limitHint => exact ih
    | _ => exact ih.cons _

theorem mem_stringsIn {ops : List KirOp} {id : KirValueId} {s : String} :
    (id, s) ∈ stringsIn ops ↔ .constStr id s ∈ ops := by
  unfold stringsIn
  rw [List.mem_filterMap]
  constructor
  · rintro ⟨op, hop, h⟩
    split at h
    · cases h
      exact hop
    · cases h
  · exact fun h => ⟨_, h, rfl⟩

namespace KirProgram

variable (program : KirProgram)

/-- The string constants of the program. -/
def strings : List (KirValueId × String) := stringsIn program.ops

/-- The values that registers are asked for up to an operation. -/
def requests (before : List KirOp) : List KirValueId :=
  program.strings.map Prod.fst ++ asked none before

/-- The strings that are loaded up to an operation. -/
def texts (before : List KirOp) : List String :=
  program.strings.map Prod.snd ++ before.flatMap KirOp.texts

/-- The number of a value. -/
def number (id : KirValueId) : ℕ := (program.requests program.ops).eraseDups.idxOf id

/-- The constant pool. -/
def pool : List String := (program.texts program.ops).eraseDups

/-- What the load of a string loads: an index has 16 bits. -/
def loads (s : String) : Option String := program.pool[program.pool.idxOf s % 2 ^ 16]?

/-- The writes into the temporaries up to an operation: all string constants, then what the operations
write. -/
def writes (before : List KirOp) : List TempWrite :=
  program.strings.map (fun x => (program.number x.1, some x.2)) ++
    before.flatMap (KirOp.writes program.number)

end KirProgram

end TORdex
