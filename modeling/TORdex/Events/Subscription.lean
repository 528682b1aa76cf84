import TORdex.Events.Bus

/-!
# A subscription on both buses

The in-memory stream yields what was published since the subscription; the Redis stream yields that and,
before it, what was published until then.
-/

namespace TORdex.Events

section Subscription

variable {Bytes : Type} {serde : Serde Bytes}

/-- What bodies give on the stream of a topic. -/
def itemsOf (serde : Serde Bytes) (topic : String) (bodies : List Bytes) : List Item :=
  bodies.filterMap (yields serde topic)

theorem itemsOf_append (topic : String) (l l' : List Bytes) :
    itemsOf serde topic (l ++ l') = itemsOf serde topic l ++ itemsOf serde topic l' :=
  List.filterMap_append

theorem itemsOf_singleton (topic : String) (body : Bytes) :
    itemsOf serde topic [body] = (yields serde topic body).toList := by
  unfold itemsOf
  cases h : yields serde topic body <;> simp [h]

/-! ## One receiver, one reader -/

/-- A receiver has yielded what it has taken of the messages sent to it. -/
structure Receives (serde : Serde Bytes) (sent : List Bytes) (r : Receiver Bytes) (topic : String)
    (taken : List Bytes) : Prop where
  onTopic : r.topic = topic
  all : taken ++ r.queue = sent
  items : r.yielded = itemsOf serde topic taken

theorem Receives.send {sent taken : List Bytes} {r : Receiver Bytes} {topic : String}
    (h : Receives serde sent r topic taken) (body : Bytes) :
    Receives serde (sent ++ [body]) (r.send body) topic taken :=
  ⟨h.onTopic, by rw [← h.all]; simp [Receiver.send], h.items⟩

theorem Receives.recv {sent taken : List Bytes} {r : Receiver Bytes} {topic : String}
    (h : Receives serde sent r topic taken) :
    ∃ taken', Receives serde sent (r.recv serde) topic taken' ∧
      (r.recv serde).queue = r.queue.tail := by
  cases hq : r.queue with
  | nil => exact ⟨taken, by simpa [Receiver.recv, hq] using h, by simp [Receiver.recv, hq]⟩
  | cons body queue =>
    refine ⟨taken ++ [body], ⟨?_, ?_, ?_⟩, by simp [Receiver.recv, hq]⟩
    · simpa [Receiver.recv, hq] using h.onTopic
    · simpa [Receiver.recv, hq] using h.all
    · rw [itemsOf_append, itemsOf_singleton, ← h.items, ← h.onTopic]
      simp [Receiver.recv, hq]

/-- A reader has yielded the part of the stream up to its last id. -/
structure Reads (serde : Serde Bytes) (entries : List (ℕ × Bytes)) (r : Reader) (topic : String)
    (done rest : List (ℕ × Bytes)) : Prop where
  onTopic : r.topic = topic
  split : entries = done ++ rest
  below : ∀ entry ∈ done, entry.1 ≤ r.lastId
  above : ∀ entry ∈ rest, r.lastId < entry.1
  items : r.yielded = itemsOf serde topic (done.map Prod.snd)

/-- The ids of a stream grow. -/
def Growing (entries : List (ℕ × Bytes)) : Prop := entries.Pairwise fun a b => a.1 < b.1

theorem Reads.add {entries done rest : List (ℕ × Bytes)} {r : Reader} {topic : String}
    (h : Reads serde entries r topic done rest) {entry : ℕ × Bytes} (new : r.lastId < entry.1) :
    Reads serde (entries ++ [entry]) r topic done (rest ++ [entry]) := by
  refine ⟨h.onTopic, by rw [h.split, List.append_assoc], h.below, ?_, h.items⟩
  intro e he
  rcases List.mem_append.1 he with he | he
  · exact h.above e he
  · rw [List.mem_singleton.1 he]
    exact new

/-- Reading a chunk of the stream entry by entry. -/
theorem Reads.chunk {entries done rest chunk : List (ℕ × Bytes)} {r : Reader} {topic : String}
    (growing : Growing entries) (h : Reads serde entries r topic done (chunk ++ rest)) :
    Reads serde entries (chunk.foldl (fun r entry => { r with
      lastId := entry.1
      yielded := r.yielded ++ (yields serde r.topic entry.2).toList }) r) topic (done ++ chunk) rest := by
  induction chunk generalizing done r with
  | nil => simpa using h
  | cons entry chunk ih =>
    have order : Growing (done ++ entry :: (chunk ++ rest)) := by
      rw [← List.cons_append, ← h.split]
      exact growing
    have after := (List.pairwise_cons.1 (List.pairwise_append.1 order).2.1).1
    have step : Reads serde entries { r with
        lastId := entry.1
        yielded := r.yielded ++ (yields serde r.topic entry.2).toList } topic (done ++ [entry])
        (chunk ++ rest) := by
      refine ⟨h.onTopic, by rw [h.split]; simp, fun e he => ?_, after, ?_⟩
      · rcases List.mem_append.1 he with he | he
        · exact (h.below e he).trans (h.above entry (by simp)).le
        · rw [List.mem_singleton.1 he]
      · rw [List.map_append, itemsOf_append, List.map_singleton, itemsOf_singleton, ← h.items,
          h.onTopic]
    have := ih step
    rwa [List.append_assoc, List.singleton_append] at this

/-- The entries with larger ids. -/
theorem Reads.unread {entries done rest : List (ℕ × Bytes)} {r : Reader} {topic : String}
    (h : Reads serde entries r topic done rest) :
    entries.filter (fun entry => decide (r.lastId < entry.1)) = rest := by
  have read : done.filter (fun entry => decide (r.lastId < entry.1)) = [] := by
    rw [List.filter_eq_nil_iff]
    intro entry he
    simpa using h.below entry he
  rw [h.split, List.filter_append, read, List.nil_append, List.filter_eq_self]
  intro entry he
  simpa using h.above entry he

theorem Reads.read {entries done rest : List (ℕ × Bytes)} {r : Reader} {topic : String}
    (growing : Growing entries) (h : Reads serde entries r topic done rest) :
    Reads serde entries (r.read serde entries) topic (done ++ rest.take 64) (rest.drop 64) := by
  unfold Reader.read
  rw [xread, h.unread]
  apply Reads.chunk growing
  rwa [List.take_append_drop]

theorem reader_bounded {entries : List (ℕ × Bytes)} {r : Reader} {bound : ℕ} (read : r.lastId ≤ bound)
    (all : ∀ entry ∈ entries, entry.1 ≤ bound) : (r.read serde entries).lastId ≤ bound := by
  have chunk : ∀ entry ∈ xread entries r.lastId, entry.1 ≤ bound :=
    fun entry he => all entry (List.mem_filter.1 (List.mem_of_mem_take he)).1
  unfold Reader.read
  generalize xread entries r.lastId = l at chunk
  induction l generalizing r with
  | nil => exact read
  | cons entry l ih =>
    obtain ⟨here, rest⟩ := List.forall_mem_cons.1 chunk
    exact ih here rest

end Subscription

/-! ## Both buses -/

namespace Buses

variable {Bytes : Type} {serde : Serde Bytes} {b : Buses Bytes}

/-- The bodies that calls publish. -/
def bodies (serde : Serde Bytes) (calls : List Call) : List Bytes :=
  (envelopes calls).map (EventEnvelope.encode serde)

theorem bodies_append (l l' : List Call) : bodies serde (l ++ l') = bodies serde l ++ bodies serde l' := by
  simp [bodies, envelopes]

/-- The ids of the stream grow from 1 to the last generated one. -/
structure Ordered (b : Buses Bytes) : Prop where
  growing : Growing b.entries
  positive : ∀ entry ∈ b.entries, 0 < entry.1
  bounded : ∀ entry ∈ b.entries, entry.1 ≤ b.lastGenerated

theorem Ordered.step (h : b.Ordered) (call : Call) : (b.step serde call).Ordered := by
  cases call with
  | publish envelope gap =>
    refine ⟨List.pairwise_append.2 ⟨h.growing, by simp, fun e he e' he' => ?_⟩, ?_, ?_⟩
    · have := h.bounded e he
      rw [List.mem_singleton.1 he']
      dsimp only
      omega
    · intro e he
      rcases List.mem_append.1 he with he | he
      · exact h.positive e he
      · rw [List.mem_singleton.1 he]
        dsimp only
        omega
    · intro e he
      show e.1 ≤ b.lastGenerated + 1 + gap
      rcases List.mem_append.1 he with he | he
      · have := h.bounded e he
        omega
      · rw [List.mem_singleton.1 he]
  | _ => exact ⟨h.growing, h.positive, h.bounded⟩

theorem Ordered.run (h : b.Ordered) (calls : List Call) : (b.run serde calls).Ordered := by
  induction calls generalizing b with
  | nil => exact h
  | cons call calls ih => exact ih (h.step call)

theorem ordered_start : (start : Buses Bytes).Ordered := ⟨List.Pairwise.nil, nofun, nofun⟩

/-- The stream holds all published bodies, and every subscription has a receiver and a reader. -/
theorem run_start (calls : List Call) :
    (start.run serde calls).entries.map Prod.snd = bodies serde calls ∧
      (start.run serde calls).receivers.length = subscriptions calls ∧
      (start.run serde calls).readers.length = subscriptions calls := by
  induction calls using List.reverseRecOn with
  | nil => exact ⟨rfl, rfl, rfl⟩
  | append_singleton calls call ih =>
    obtain ⟨entries, receivers, readers⟩ := ih
    have last : start.run serde (calls ++ [call]) = (start.run serde calls).step serde call :=
      List.foldl_concat _ _ _ _
    rw [last, bodies_append, subscriptions, List.countP_append, ← subscriptions]
    cases call <;>
      simp [step, entries, receivers, readers, bodies, envelopes]

/-- A subscription on both buses, `old` published before it and `since` after it. -/
structure Tracks (serde : Serde Bytes) (b : Buses Bytes) (i : ℕ) (topic : String)
    (old since : List Bytes) : Prop where
  ordered : b.Ordered
  receiver : ∃ r taken, b.receivers[i]? = some r ∧ Receives serde since r topic taken
  reader : ∃ r done rest, b.readers[i]? = some r ∧ Reads serde b.entries r topic done rest ∧
    r.lastId ≤ b.lastGenerated
  stream : b.entries.map Prod.snd = old ++ since

theorem tracks_subscribe (calls : List Call) (topic : String) :
    Tracks serde ((start.run serde calls).step serde (.subscribe topic)) (subscriptions calls) topic
      (bodies serde calls) [] := by
  have ordered : (start.run serde calls).Ordered := ordered_start.run calls
  obtain ⟨entries, receivers, readers⟩ := @run_start Bytes serde calls
  refine ⟨ordered.step _, ⟨⟨topic, [], []⟩, [], ?_, rfl, rfl, rfl⟩,
    ⟨⟨topic, 0, []⟩, [], (start.run serde calls).entries, ?_, ⟨rfl, rfl, nofun, ?_, rfl⟩,
      Nat.zero_le _⟩, ?_⟩
  · rw [← receivers]
    exact List.getElem?_concat_length
  · rw [← readers]
    exact List.getElem?_concat_length
  · exact ordered.positive
  · rw [List.append_nil]
    exact entries

theorem Tracks.step {i : ℕ} {topic : String} {old since : List Bytes}
    (h : Tracks serde b i topic old since) (call : Call) :
    Tracks serde (b.step serde call) i topic old (since ++ bodies serde [call]) := by
  obtain ⟨r, taken, hr, receives⟩ := h.receiver
  obtain ⟨d, done, rest, hd, reads, last⟩ := h.reader
  have ordered : (b.step serde call).Ordered := h.ordered.step call
  cases call with
  | publish envelope gap =>
    have later : d.lastId < b.lastGenerated + 1 + gap := by omega
    refine ⟨ordered, ⟨_, taken, ?_, receives.send _⟩, ⟨d, done, _, hd, reads.add later, later.le⟩, ?_⟩
    · show (b.receivers.map _)[i]? = _
      rw [List.getElem?_map, hr]
      rfl
    · show (b.entries ++ _).map Prod.snd = _
      rw [List.map_append, h.stream, List.append_assoc]
      rfl
  | subscribe topic' =>
    refine ⟨ordered, ⟨r, taken, ?_, by simpa [bodies, envelopes] using receives⟩,
      ⟨d, done, rest, ?_, reads, last⟩, ?_⟩
    · rw [← hr]
      exact List.getElem?_append_left (List.getElem?_eq_some_iff.1 hr).1
    · rw [← hd]
      exact List.getElem?_append_left (List.getElem?_eq_some_iff.1 hd).1
    · show b.entries.map Prod.snd = _
      simpa [bodies, envelopes] using h.stream
  | recv j =>
    have none : since ++ bodies serde [.recv j] = since := by simp [bodies, envelopes]
    rw [none]
    refine ⟨ordered, ?_, ⟨d, done, rest, hd, reads, last⟩, h.stream⟩
    by_cases hj : j = i
    · obtain ⟨taken', receives', -⟩ := receives.recv
      refine ⟨_, taken', ?_, receives'⟩
      show (b.receivers.modify j _)[i]? = _
      rw [hj, List.getElem?_modify_eq, hr]
      rfl
    · refine ⟨r, taken, ?_, receives⟩
      show (b.receivers.modify j _)[i]? = _
      rw [List.getElem?_modify_ne _ _ hj, hr]
  | read j =>
    have none : since ++ bodies serde [.read j] = since := by simp [bodies, envelopes]
    rw [none]
    refine ⟨ordered, ⟨r, taken, hr, receives⟩, ?_, h.stream⟩
    by_cases hj : j = i
    · refine ⟨_, _, _, ?_, reads.read h.ordered.growing, ?_⟩
      · show (b.readers.modify j _)[i]? = _
        rw [hj, List.getElem?_modify_eq, hd]
        rfl
      · exact reader_bounded last h.ordered.bounded
    · refine ⟨d, done, rest, ?_, reads, last⟩
      show (b.readers.modify j _)[i]? = _
      rw [List.getElem?_modify_ne _ _ hj, hd]

theorem Tracks.run {i : ℕ} {topic : String} {old since : List Bytes}
    (h : Tracks serde b i topic old since) (calls : List Call) :
    Tracks serde (b.run serde calls) i topic old (since ++ bodies serde calls) := by
  induction calls generalizing b since with
  | nil => simpa [Buses.run, bodies, envelopes] using h
  | cons call calls ih =>
    have := ih (h.step call)
    rwa [List.append_assoc, ← bodies_append, List.singleton_append] at this

/-- What both streams have yielded when they have taken all there is. -/
theorem Tracks.caughtUp {i : ℕ} {topic : String} {old since : List Bytes}
    (h : Tracks serde b i topic old since) (caughtUp : b.CaughtUp i) :
    b.memoryItems i = some (itemsOf serde topic since) ∧
      b.redisItems i = some (itemsOf serde topic old ++ itemsOf serde topic since) := by
  obtain ⟨r, taken, hr, receives⟩ := h.receiver
  obtain ⟨d, done, rest, hd, reads, -⟩ := h.reader
  have queue := receives.all
  rw [caughtUp.1 r hr, List.append_nil] at queue
  have none : rest = [] := by
    apply List.eq_nil_iff_forall_not_mem.2
    intro entry he
    have before := reads.above entry he
    have after := caughtUp.2 d hd entry (by rw [reads.split]; exact List.mem_append_right _ he)
    omega
  have stream := reads.split
  rw [none, List.append_nil] at stream
  constructor
  · rw [memoryItems, hr, ← queue, ← receives.items]
    rfl
  · rw [redisItems, hd, ← itemsOf_append, ← h.stream, stream, ← reads.items]
    rfl

/-- How much the two streams of a subscription have not taken yet. -/
def pending (b : Buses Bytes) (i : ℕ) : ℕ :=
  b.receivers[i]?.elim 0 (fun r => r.queue.length) +
    b.readers[i]?.elim 0 fun d => (b.entries.filter fun entry => decide (d.lastId < entry.1)).length

/-- One more round of a stream that has something to take. -/
theorem Tracks.progress {i : ℕ} {topic : String} {old since : List Bytes}
    (h : Tracks serde b i topic old since) (behind : ¬b.CaughtUp i) :
    ∃ call, (call = .recv i ∨ call = .read i) ∧ (b.step serde call).pending i < b.pending i := by
  obtain ⟨r, taken, hr, receives⟩ := h.receiver
  obtain ⟨d, done, rest, hd, reads, -⟩ := h.reader
  by_cases queue : r.queue = []
  · refine ⟨.read i, .inr rfl, ?_⟩
    have some : rest ≠ [] := by
      intro none
      apply behind
      refine ⟨fun r' hr' => ?_, fun d' hd' entry he => ?_⟩
      · rw [hr] at hr'
        rwa [← Option.some.inj hr']
      · rw [hd] at hd'
        rw [← Option.some.inj hd']
        apply reads.below
        rwa [reads.split, none, List.append_nil] at he
    have next : (b.step serde (.read i)).readers[i]? = .some (d.read serde b.entries) := by
      show (b.readers.modify i _)[i]? = _
      rw [List.getElem?_modify_eq, hd]
      rfl
    have kept : (b.step serde (.read i)).receivers = b.receivers := rfl
    have stream : (b.step serde (.read i)).entries = b.entries := rfl
    have less := List.length_pos_iff.2 some
    simp only [pending, next, kept, stream, hr, hd, Option.elim, reads.unread,
      (reads.read h.ordered.growing).unread, List.length_drop]
    omega
  · refine ⟨.recv i, .inl rfl, ?_⟩
    obtain ⟨-, -, tail⟩ := receives.recv
    have next : (b.step serde (.recv i)).receivers[i]? = .some (r.recv serde) := by
      show (b.receivers.modify i _)[i]? = _
      rw [List.getElem?_modify_eq, hr]
      rfl
    have kept : (b.step serde (.recv i)).readers = b.readers := rfl
    have stream : (b.step serde (.recv i)).entries = b.entries := rfl
    have less := List.length_pos_iff.2 queue
    simp only [pending, next, kept, stream, hr, hd, Option.elim, tail, List.length_tail]
    omega

/-- The rounds of the two streams take all there is. -/
theorem Tracks.finish {i : ℕ} {topic : String} {old since : List Bytes}
    (h : Tracks serde b i topic old since) :
    ∃ rounds : List Call, (∀ call ∈ rounds, call = .recv i ∨ call = .read i) ∧
      (b.run serde rounds).CaughtUp i := by
  induction hn : b.pending i using Nat.strong_induction_on generalizing b since with
  | _ n ih =>
    by_cases caughtUp : b.CaughtUp i
    · exact ⟨[], nofun, caughtUp⟩
    · obtain ⟨call, isRound, less⟩ := h.progress caughtUp
      obtain ⟨rounds, areRounds, done⟩ := ih _ (hn ▸ less) (h.step call) rfl
      refine ⟨call :: rounds, ?_, done⟩
      exact List.forall_mem_cons.2 ⟨isRound, areRounds⟩

/-- The two streams of a subscription take all there is sooner or later, and then they have yielded the
same items exactly when nothing published before the subscription is for its topic. -/
theorem items_iff (serde : Serde Bytes) (before after : List Call) (topic : String) :
    (∃ rounds : List Call,
      (∀ call ∈ rounds, call = .recv (subscriptions before) ∨ call = .read (subscriptions before)) ∧
        (start.run serde (before ++ .subscribe topic :: after ++ rounds)).CaughtUp
          (subscriptions before)) ∧
      ((start.run serde (before ++ .subscribe topic :: after)).CaughtUp (subscriptions before) →
        ((start.run serde (before ++ .subscribe topic :: after)).memoryItems (subscriptions before) =
            (start.run serde (before ++ .subscribe topic :: after)).redisItems (subscriptions before) ↔
          ∀ envelope ∈ envelopes before, yields serde topic (envelope.encode serde) = none)) := by
  have tracks : Tracks serde (((start.run serde before).step serde (.subscribe topic)).run serde after)
      (subscriptions before) topic (bodies serde before) ([] ++ bodies serde after) :=
    (tracks_subscribe before topic).run after
  rw [List.nil_append] at tracks
  have now : ∀ calls, start.run serde (before ++ .subscribe topic :: calls) =
      (((start.run serde before).step serde (.subscribe topic)).run serde calls) :=
    fun calls => List.foldl_append ..
  refine ⟨?_, fun caughtUp => ?_⟩
  · obtain ⟨rounds, areRounds, done⟩ := tracks.finish
    refine ⟨rounds, areRounds, ?_⟩
    rw [List.append_assoc, List.cons_append, now]
    rwa [run, List.foldl_append]
  · rw [now] at caughtUp ⊢
    obtain ⟨memory, redis⟩ := tracks.caughtUp caughtUp
    rw [memory, redis, Option.some_inj, List.self_eq_append_left, itemsOf, List.filterMap_eq_nil_iff,
      bodies, List.forall_mem_map]

/-- JSON values as bytes, and times as numbers. -/
def sampleSerde : Serde Json where
  toVec := id
  fromSlice := .ok
  timeToJson := .int
  timeFromJson
    | .int n => .ok n
    | _ => .error "not a time"

/-- An envelope for all receivers. -/
def sampleEnvelope : EventEnvelope := ⟨.ofNat 1, "all", 0, .null⟩

theorem yields_sample : yields sampleSerde "all" (sampleEnvelope.encode sampleSerde) =
    some (.ok sampleEnvelope) := by
  rw [yields, EventEnvelope.decode_encode sampleSerde (fun _ => rfl) (fun _ => rfl)]
  exact if_pos rfl

/-- One envelope is published and taken by both streams. -/
def sampleCalls : List Call := [.publish sampleEnvelope 0, .recv 0, .read 0]

theorem sample_caughtUp :
    (start.run sampleSerde (.subscribe "all" :: sampleCalls)).CaughtUp 0 := by
  constructor
  · intro r hr
    obtain rfl := Option.some.inj hr
    rfl
  · intro r hr entry he
    obtain rfl := Option.some.inj hr
    rw [List.mem_singleton.1 he]
    exact le_rfl

theorem items_eq : (start.run sampleSerde (.subscribe "all" :: sampleCalls)).memoryItems 0 =
    (start.run sampleSerde (.subscribe "all" :: sampleCalls)).redisItems 0 :=
  ((items_iff sampleSerde [] sampleCalls "all").2 sample_caughtUp).2 nofun

/-- The Redis stream replays what was published before the subscription. -/
theorem items_ne :
    (start.run sampleSerde [.publish sampleEnvelope 0, .subscribe "all", .read 0]).CaughtUp 0 ∧
      (start.run sampleSerde [.publish sampleEnvelope 0, .subscribe "all", .read 0]).memoryItems 0 =
        some [] ∧
      (start.run sampleSerde [.publish sampleEnvelope 0, .subscribe "all", .read 0]).redisItems 0 =
        some [.ok sampleEnvelope] := by
  refine ⟨⟨fun r hr => ?_, fun r hr entry he => ?_⟩, rfl, ?_⟩
  · obtain rfl := Option.some.inj hr
    rfl
  · obtain rfl := Option.some.inj hr
    rw [List.mem_singleton.1 he]
    exact le_rfl
  · show some ([] ++ (yields sampleSerde "all" (sampleEnvelope.encode sampleSerde)).toList) = _
    rw [yields_sample]
    rfl

end Buses

end TORdex.Events
