import Mathlib.Data.List.Nodup
import Mathlib.Order.Lattice

/-!
# Streams with consumer groups

Appended entries with rising ids.  A consumer group delivers each entry to one consumer, the oldest first, and
keeps it as pending until it is acknowledged.
-/

namespace LogStream

/-- An entry, with the id that it got. -/
structure StreamEntry (P : Type) where
  id : ℕ
  fields : P
  deriving DecidableEq

/-- A stream.  Its ids are positive and rise, and none is above the last one that was given. -/
structure Stream (P : Type) where
  entries : List (StreamEntry P)
  lastId : ℕ
  ordered : entries.Pairwise fun a b => a.id < b.id
  bounded : ∀ e ∈ entries, e.id ≤ lastId
  positive : ∀ e ∈ entries, 0 < e.id

variable {P C : Type}

namespace Stream

/-- The stream to which nothing has been appended. -/
def empty : Stream P := ⟨[], 0, .nil, by simp, by simp⟩

/-- Appends an entry, with an id of its own that is larger than all before. -/
def add (s : Stream P) (gap : ℕ) (fields : P) : Stream P where
  entries := s.entries ++ [⟨s.lastId + 1 + gap, fields⟩]
  lastId := s.lastId + 1 + gap
  ordered := by
    refine List.pairwise_append.2 ⟨s.ordered, List.pairwise_singleton _ _, fun a ha b hb => ?_⟩
    have := s.bounded a ha
    rw [List.mem_singleton.1 hb]
    show a.id < s.lastId + 1 + gap
    omega
  bounded e he := by
    rcases List.mem_append.1 he with he | he
    · have := s.bounded e he
      omega
    · rw [List.mem_singleton.1 he]
  positive e he := by
    rcases List.mem_append.1 he with he | he
    · exact s.positive e he
    · rw [List.mem_singleton.1 he]
      show 0 < s.lastId + 1 + gap
      omega

/-- The entry of an id is gone, and its id is not given again. -/
def delete (s : Stream P) (id : ℕ) : Stream P where
  entries := s.entries.filter fun e => e.id ≠ id
  lastId := s.lastId
  ordered := s.ordered.sublist List.filter_sublist
  bounded e he := s.bounded e (List.mem_of_mem_filter he)
  positive e he := s.positive e (List.mem_of_mem_filter he)

/-- The oldest entries after an id, at most so many; the number zero is no limit. -/
def read (s : Stream P) (after count : ℕ) : List (StreamEntry P) :=
  let later := s.entries.filter fun e => after < e.id
  if count = 0 then later else later.take count

/-- Entries with one id are the same. -/
theorem eq_of_id (s : Stream P) {a b : StreamEntry P} (ha : a ∈ s.entries) (hb : b ∈ s.entries) (same : a.id = b.id) :
    a = b := by
  have nodup : (s.entries.map StreamEntry.id).Nodup := List.pairwise_map.2 (s.ordered.imp fun h => h.ne)
  exact List.inj_on_of_nodup_map nodup ha hb same

theorem read_sublist (s : Stream P) (after count : ℕ) : (s.read after count).Sublist s.entries := by
  unfold read
  dsimp only
  split_ifs
  · exact List.filter_sublist
  · exact (List.take_sublist _ _).trans List.filter_sublist

theorem read_zero (s : Stream P) {count : ℕ} (limited : 0 < count) : s.read 0 count = s.entries.take count := by
  rw [read, List.filter_eq_self.2 fun e he => by simpa using s.positive e he]
  exact if_neg limited.ne'

@[simp] theorem add_entries (s : Stream P) (gap : ℕ) (fields : P) :
    (s.add gap fields).entries = s.entries ++ [⟨s.lastId + 1 + gap, fields⟩] := rfl

theorem mem_delete {s : Stream P} {id : ℕ} {e : StreamEntry P} :
    e ∈ (s.delete id).entries ↔ e ∈ s.entries ∧ e.id ≠ id := by
  simp [delete]

end Stream

/-- A consumer group: the last id that it has delivered, and the deliveries that are not acknowledged. -/
structure ConsumerGroup (C : Type) where
  lastDelivered : ℕ
  pending : List (ℕ × C)

namespace ConsumerGroup

/-- The oldest entry that has not been delivered. -/
def next (g : ConsumerGroup C) (s : Stream P) : Option (StreamEntry P) :=
  s.entries.find? fun e => g.lastDelivered < e.id

/-- The entry is pending for the consumer that it goes to. -/
def deliver (g : ConsumerGroup C) (e : StreamEntry P) (consumer : C) : ConsumerGroup C :=
  ⟨e.id, g.pending ++ [(e.id, consumer)]⟩

/-- The entry is no longer pending. -/
def acknowledge (g : ConsumerGroup C) (id : ℕ) : ConsumerGroup C :=
  { g with pending := g.pending.filter fun p => p.1 ≠ id }

/-- The entry has been delivered and not acknowledged. -/
def Pending (g : ConsumerGroup C) (id : ℕ) : Prop := id ∈ g.pending.map Prod.fst

theorem mem_of_next {g : ConsumerGroup C} {s : Stream P} {e : StreamEntry P} (h : g.next s = some e) :
    e ∈ s.entries ∧ g.lastDelivered < e.id :=
  ⟨List.mem_of_find?_eq_some h, by simpa using List.find?_some h⟩

/-- What comes before the delivered entry had been delivered. -/
theorem delivered_of_lt_next {g : ConsumerGroup C} {s : Stream P} {e d : StreamEntry P} (h : g.next s = some e)
    (mem : d ∈ s.entries) (lt : d.id < e.id) : d.id ≤ g.lastDelivered := by
  obtain ⟨before, after, split, none⟩ := (List.find?_eq_some_iff_append.1 h).2
  have earlier : d ∈ before := by
    have ordered := s.ordered
    rw [split] at mem ordered
    rcases List.mem_append.1 mem with mem | mem
    · exact mem
    · have later := (List.pairwise_cons.1 (List.pairwise_append.1 ordered).2.1).1
      rcases List.mem_cons.1 mem with rfl | mem
      · exact absurd lt (lt_irrefl _)
      · exact absurd (later d mem) lt.not_gt
  simpa using none d earlier

theorem pending_deliver {g : ConsumerGroup C} {e : StreamEntry P} {consumer : C} {id : ℕ} :
    (g.deliver e consumer).Pending id ↔ g.Pending id ∨ id = e.id := by
  simp [Pending, deliver]

theorem pending_acknowledge {g : ConsumerGroup C} {id other : ℕ} :
    (g.acknowledge id).Pending other ↔ g.Pending other ∧ other ≠ id := by
  simp only [Pending, acknowledge, List.mem_map, List.mem_filter, decide_eq_true_eq]
  constructor
  · rintro ⟨p, ⟨mem, ne⟩, rfl⟩
    exact ⟨⟨p, mem, rfl⟩, ne⟩
  · rintro ⟨⟨p, mem, rfl⟩, ne⟩
    exact ⟨p, ⟨mem, ne⟩, rfl⟩

end ConsumerGroup

end LogStream
