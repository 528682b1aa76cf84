import Mathlib.Data.Finset.Sort
import Mathlib.Data.String.Basic
import TORdex.Core.Json

/-! Keyed storage in memory. -/

namespace TORdex

/-- A value under a key. -/
structure Entry where
  key : String
  value : List UInt8
  contentType : Option String
  createdAt : ℤ
  deriving DecidableEq

/-- The texts of a set in their order. -/
def sortTexts (texts : Finset String) : List String := texts.sort (· ≤ ·)

theorem mem_sortTexts {texts : Finset String} {text : String} : text ∈ sortTexts texts ↔ text ∈ texts :=
  Finset.mem_sort _

theorem sortTexts_increasing (texts : Finset String) : (sortTexts texts).Pairwise (· < ·) :=
  (Finset.sortedLT_sort texts).pairwise

/-- The entries by their keys. -/
abbrev InMemoryStorage := HashMap String Entry

namespace InMemoryStorage

/-- Without entries. -/
def new : InMemoryStorage := ∅

/-- Store a value, in place of an earlier one. -/
def store (s : InMemoryStorage) (key : String) (value : List UInt8) (contentType : Option String)
    (now : ℤ) : InMemoryStorage :=
  s.insert key ⟨key, value, contentType, now⟩

/-- The entry of a key. -/
def load (s : InMemoryStorage) (key : String) : Option Entry := s.lookup key

/-- Delete an entry, and tell whether there was one. -/
def delete (s : InMemoryStorage) (key : String) : Bool × InMemoryStorage :=
  ((s.lookup key).isSome, s.erase key)

/-- The keys that start with a text.  The hash map has them in any order; here they are sorted. -/
def list (s : InMemoryStorage) (start : String) : List String :=
  sortTexts (s.keys.filter fun key => start.toList <+: key.toList)

/-- There is an entry. -/
def existsAt (s : InMemoryStorage) (key : String) : Bool := (s.lookup key).isSome

theorem mem_list {s : InMemoryStorage} {start key : String} :
    key ∈ s.list start ↔ s.existsAt key = true ∧ start.toList <+: key.toList := by
  unfold list existsAt
  rw [mem_sortTexts, Finset.mem_filter, Finmap.mem_keys, ← Finmap.lookup_isSome]

end InMemoryStorage

end TORdex
