import NamedContent.Proofs.Flow.Conservation
import NamedContent.Proofs.Flow.Forgetting
import NamedContent.Proofs.Flow.Renumbering

/-! One flow inside another.

Of two names none begins the other, and all that a flow holds lies under one of
them. Another flow mirrors it if it holds the same under the first of the names
and nothing else. Whatever looks for content or interests under that name finds
the same in both. -/

set_option autoImplicit false

namespace NamedContent.Flow

variable {τ : Type}

theorem lies_of_bestBuffered? {flow : Flow τ} {side other : Name} {interest : Interest} {object : ContentObject}
    (apart : side.touches other = false)
    (lies : ∀ object ∈ flow.buffer.values, side.isPrefixOf object.name = true ∨ other.isPrefixOf object.name = true)
    (asks : side.isPrefixOf interest.name = true) (best : flow.bestBuffered? interest = some object) :
    side.isPrefixOf object.name = true := by
  obtain ⟨stored, matched, -⟩ := bestBuffered?_cases best
  exact Interest.lies_of_matchesObject apart matched asks (lies object stored)

variable [Transport τ]

/-- All that a flow holds lies under one of two names, and another flow holds
what lies under the first. Both take in content under either name. -/
structure Mirrors (side other : Name) (rank : Nat → Nat) (whole part : Flow τ) : Prop where
  serves : ∀ object, side.isPrefixOf object.name = true ∨ other.isPrefixOf object.name = true →
    whole.weighs object = true
  config : part.config = whole.config
  namespaces : part.namespaces = whole.namespaces
  now : part.now = whole.now
  enabled : part.enabled = whole.enabled
  closed : part.closed = whole.closed
  steady : Transport.Steady whole.transport
  partSteady : Transport.Steady part.transport
  lies : ∀ object ∈ whole.buffer.values, side.isPrefixOf object.name = true ∨ other.isPrefixOf object.name = true
  buffer : part.buffer = whole.buffer.filter (side.isPrefixOf ·.name)
  marks : ∀ stream, side.isPrefixOf stream = true → part.marks.find? stream = whole.marks.find? stream
  pending : Tracks side other rank whole.pending part.pending
  ranks : Ranks rank (whole.pending.numbersUnder side) whole.nextSeq part.nextSeq

namespace Mirrors

variable {side other : Name} {rank : Nat → Nat} {whole part : Flow τ} {interest : Interest} {object : ContentObject}

/-! What is found in both. -/

section Searches

theorem lowWater?_eq (mirrors : Mirrors side other rank whole part) {stream : Name}
    (begins : side.isPrefixOf stream = true) : part.lowWater? stream = whole.lowWater? stream :=
  congrArg _ (mirrors.marks stream begins)

theorem inOrder_eq (mirrors : Mirrors side other rank whole part) (asks : side.isPrefixOf interest.name = true)
    (name : Name) : part.inOrder interest name = whole.inOrder interest name := by
  simp only [inOrder, mirrors.config, mirrors.lowWater?_eq asks]

theorem mayHave_eq (mirrors : Mirrors side other rank whole part) (asks : side.isPrefixOf interest.name = true) :
    part.mayHave interest = whole.mayHave interest := by
  funext object
  rw [mayHave, mayHave, mirrors.inOrder_eq asks]

theorem under_eq (mirrors : Mirrors side other rank whole part) {name : Name} (begins : side.isPrefixOf name = true) :
    part.buffer.under name = whole.buffer.under name := by
  refine (part.buffer.ascending_under name).eq_of_mem_iff (whole.buffer.ascending_under name) fun object => ?_
  rw [NameIndex.mem_under_iff, NameIndex.mem_under_iff, mirrors.buffer, NameIndex.mem_filter_iff, and_assoc]
  exact and_congr_right fun _ => ⟨And.right, fun within => ⟨Name.isPrefixOf_trans begins within, within⟩⟩

theorem anyUnder_eq (mirrors : Mirrors side other rank whole part) {name : Name}
    (begins : side.isPrefixOf name = true) : part.buffer.anyUnder name = whole.buffer.anyUnder name := by
  rw [Bool.eq_iff_iff, NameIndex.anyUnder_iff, NameIndex.anyUnder_iff]
  refine exists_congr fun object => ?_
  rw [← NameIndex.mem_under_iff, ← NameIndex.mem_under_iff, mirrors.under_eq begins]

theorem find?_eq (mirrors : Mirrors side other rank whole part) {name : Name}
    (aside : other.isPrefixOf name = false) : part.buffer.find? name = whole.buffer.find? name := by
  rw [mirrors.buffer, NameIndex.find?_filter]
  cases found : whole.buffer.find? name with
  | none => rfl
  | some object =>
    obtain ⟨stored, rfl⟩ := NameIndex.find?_eq_some_iff.mp found
    have lies := (mirrors.lies object stored).resolve_right (Bool.eq_false_iff.mp aside)
    rw [Option.filter_some, if_pos lies]

theorem bestBuffered?_eq (mirrors : Mirrors side other rank whole part) (apart : side.touches other = false)
    (asks : side.isPrefixOf interest.name = true) : part.bestBuffered? interest = whole.bestBuffered? interest := by
  have parent : interest.name.parent?.bind part.buffer.find? = interest.name.parent?.bind whole.buffer.find? := by
    cases parented : interest.name.parent? with
    | none => rfl
    | some parent =>
      obtain ⟨last, spelled⟩ := Name.parent?_eq_some_iff.mp parented
      refine mirrors.find?_eq ?_
      rw [← Bool.not_eq_true]
      intro begins
      have also := Name.isPrefixOf_trans begins (Name.isPrefixOf_child parent last)
      rw [← spelled, Name.isPrefixOf_eq_false apart asks] at also
      exact absurd also (by simp)
  simp only [bestBuffered?, mirrors.under_eq asks, mirrors.mayHave_eq asks, parent]

-- The interests that may have an object are the same, but for their numbers.
theorem waiting_eq (mirrors : Mirrors side other rank whole part) (apart : side.touches other = false)
    (lies : side.isPrefixOf object.name = true) :
    part.waiting object = (whole.waiting object).map (Candidate.renumber rank) := by
  have begins : side.components <+: object.target.path :=
    (Name.isPrefixOf_iff.mp lies).trans (List.prefix_append _ _)
  have candidates : (part.pending.allMatches object.target).filterMap Entry.candidate?
      = ((whole.pending.allMatches object.target).filterMap Entry.candidate?).map (Candidate.renumber rank) := by
    rw [mirrors.pending.allMatches_eq apart begins, List.filterMap_map, List.map_filterMap]
    exact List.filterMap_congr fun entry _ => Entry.candidate?_renumber rank entry
  rw [waiting, waiting, candidates, List.filter_map]
  refine congrArg _ (List.filter_congr fun candidate found => ?_)
  obtain ⟨entry, listed, read⟩ := List.mem_filterMap.mp found
  have asks := mirrors.pending.lies_of_mem_allMatches apart begins listed
  cases entry with
  | bare name pending => exact absurd read (by simp [Entry.candidate?])
  | interest asked pending =>
    obtain rfl : ⟨asked, pending⟩ = candidate := Option.some.inj read
    exact mirrors.inOrder_eq asks object.name

theorem lies_of_waiting (mirrors : Mirrors side other rank whole part) (apart : side.touches other = false)
    (lies : side.isPrefixOf object.name = true) {candidate : Candidate} (found : candidate ∈ whole.waiting object) :
    side.isPrefixOf candidate.interest.name = true ∧
      Entry.interest candidate.interest candidate.pending ∈ whole.pending.toList := by
  obtain ⟨waits, allowed⟩ := (mem_waiting_iff mirrors.pending.canonical.toWellFormed).mp found
  exact ⟨Interest.asks_of_matchesObject apart (mayHave_iff.mp allowed).1 lies (mirrors.pending.lies _ waits), waits⟩

theorem bestPending?_eq (mirrors : Mirrors side other rank whole part) (apart : side.touches other = false)
    (lies : side.isPrefixOf object.name = true) :
    part.bestPending? object = (whole.bestPending? object).map (Candidate.renumber rank) := by
  have known : ∀ candidate ∈ whole.waiting object, candidate.pending.seq ∈ whole.pending.numbersUnder side := by
    intro candidate found
    obtain ⟨asks, waits⟩ := mirrors.lies_of_waiting apart lies found
    exact ⟨_, waits, asks, rfl⟩
  rw [bestPending?, bestPending?, mirrors.waiting_eq apart lies]
  exact Candidate.best?_map fun first firstIn second secondIn =>
    Candidate.yieldsTo_renumber (mirrors.ranks.order _ (known second secondIn) _ (known first firstIn))

end Searches

/-! What both do, or the first alone. -/

section Changes
variable {transport partTransport : τ}

theorem expire (mirrors : Mirrors side other rank whole part) (now : Timestamp) :
    Mirrors side other rank (whole.expire now) (part.expire now) where
  serves := mirrors.serves
  config := mirrors.config
  namespaces := mirrors.namespaces
  now := congrArg (·.latest now) mirrors.now
  enabled := mirrors.enabled
  closed := mirrors.closed
  steady := mirrors.steady
  partSteady := mirrors.partSteady
  lies := mirrors.lies
  buffer := mirrors.buffer
  marks := by
    intro stream begins
    have same := mirrors.marks stream begins
    cases lifetime : whole.config.interestLifetime with
    | none => simpa [Flow.expire, mirrors.config, lifetime] using same
    | some idle =>
      simp only [Flow.expire, mirrors.config, lifetime, NameIndex.find?_filter, same]
      cases held : whole.marks.find? stream with
      | none => rfl
      | some mark =>
        obtain ⟨-, rfl⟩ := NameIndex.find?_eq_some_iff.mp held
        rw [Option.filter_some, Option.filter_some, mirrors.anyUnder_eq begins]
  pending := mirrors.pending.filter now
  ranks := mirrors.ranks.mono
    (Table.numbersUnder_mono fun _ waits => ((Table.mem_filter_iff mirrors.pending.canonical.toWellFormed).mp waits).1)
    (Nat.le_refl _)

theorem forward (mirrors : Mirrors side other rank whole part) (object : ContentObject)
    (steady : Transport.Steady transport) (partSteady : Transport.Steady partTransport) :
    Mirrors side other rank (whole.forward object transport) (part.forward object partTransport) := by
  have marks : ∀ stream, side.isPrefixOf stream = true →
      (part.forward object partTransport).marks.find? stream = (whole.forward object transport).marks.find? stream := by
    intro stream begins
    rw [find?_forward, find?_forward, mirrors.marks stream begins]
    cases object.name.splitSegment? with
    | none => rfl
    | some parts =>
      by_cases same : parts.1 = stream
      · simp only [advance, same, mirrors.lowWater?_eq begins, mirrors.now]
      · simp only [if_neg same]
  rw [whole.forward_eq, part.forward_eq]
  exact { mirrors with steady, partSteady, marks }

-- A mark that moves on the other side is not on a stream of this side.
theorem forward_other (mirrors : Mirrors side other rank whole part) (apart : side.touches other = false)
    (lies : other.isPrefixOf object.name = true) (steady : Transport.Steady transport) :
    Mirrors side other rank (whole.forward object transport) part := by
  have marks : ∀ stream, side.isPrefixOf stream = true →
      part.marks.find? stream = (whole.forward object transport).marks.find? stream := by
    intro stream begins
    rw [find?_forward, mirrors.marks stream begins]
    cases split : object.name.splitSegment? with
    | none => rfl
    | some parts =>
      have named : object.name = parts.1.segment parts.2 := Name.splitSegment?_eq_some_iff.mp split
      have elsewhere : parts.1 ≠ stream := by
        rintro rfl
        have also := Name.isPrefixOf_trans begins (named ▸ Name.isPrefixOf_segment parts.1 parts.2)
        exact absurd ((Name.isPrefixOf_eq_false apart also).symm.trans lies) (by simp)
      simp only [if_neg elsewhere]
  rw [whole.forward_eq]
  exact { mirrors with steady, marks }

theorem insert (mirrors : Mirrors side other rank whole part) (lies : side.isPrefixOf object.name = true) :
    Mirrors side other rank { whole with buffer := whole.buffer.insert object }
      { part with buffer := part.buffer.insert object } :=
  { mirrors with
    lies := by
      intro stored found
      rcases NameIndex.mem_insert_iff.mp found with rfl | ⟨earlier, -⟩
      · exact Or.inl lies
      · exact mirrors.lies stored earlier
    buffer := by
      rw [mirrors.buffer]
      exact (whole.buffer.filter_insert lies).symm }

theorem insert_other (mirrors : Mirrors side other rank whole part) (apart : side.touches other = false)
    (lies : other.isPrefixOf object.name = true) :
    Mirrors side other rank { whole with buffer := whole.buffer.insert object } part :=
  { mirrors with
    lies := by
      intro stored found
      rcases NameIndex.mem_insert_iff.mp found with rfl | ⟨earlier, -⟩
      · exact Or.inr lies
      · exact mirrors.lies stored earlier
    buffer := by
      have outside := Name.isPrefixOf_eq_false (Name.touches_eq_false_comm apart) lies
      rw [mirrors.buffer]
      exact (whole.buffer.filter_insert_of_outside outside).symm }

theorem erase (mirrors : Mirrors side other rank whole part) (name : Name) :
    Mirrors side other rank { whole with buffer := whole.buffer.erase name }
      { part with buffer := part.buffer.erase name } :=
  { mirrors with
    lies := fun object found => mirrors.lies object (NameIndex.mem_erase_iff.mp found).1
    buffer := by
      rw [mirrors.buffer]
      exact (whole.buffer.filter_erase _ name).symm }

theorem erase_other (mirrors : Mirrors side other rank whole part) {name : Name}
    (outside : side.isPrefixOf name = false) :
    Mirrors side other rank { whole with buffer := whole.buffer.erase name } part :=
  { mirrors with
    lies := fun object found => mirrors.lies object (NameIndex.mem_erase_iff.mp found).1
    buffer := by
      rw [mirrors.buffer]
      exact (whole.buffer.filter_erase_of_outside outside).symm }

theorem remove (mirrors : Mirrors side other rank whole part) {pending : Pending}
    (asks : side.isPrefixOf interest.name = true)
    (waits : Entry.interest interest pending ∈ whole.pending.toList) :
    Mirrors side other rank { whole with pending := (whole.pending.removeInterest interest pending).2 }
      { part with pending := (part.pending.removeInterest interest (pending.renumber rank)).2 } :=
  { mirrors with
    pending := mirrors.pending.remove mirrors.ranks asks waits
    ranks := mirrors.ranks.mono
      (Table.numbersUnder_mono fun _ => Table.mem_of_mem_removeInterest mirrors.pending.canonical.toWellFormed)
      (Nat.le_refl _) }

theorem remove_other (mirrors : Mirrors side other rank whole part) (asks : other.isPrefixOf interest.name = true)
    (pending : Pending) :
    Mirrors side other rank { whole with pending := (whole.pending.removeInterest interest pending).2 } part :=
  { mirrors with
    pending := mirrors.pending.remove_other asks pending
    ranks := mirrors.ranks.mono
      (Table.numbersUnder_mono fun _ => Table.mem_of_mem_removeInterest mirrors.pending.canonical.toWellFormed)
      (Nat.le_refl _) }

theorem register (mirrors : Mirrors side other rank whole part) (asks : side.isPrefixOf interest.name = true)
    (now : Timestamp) :
    Mirrors side other (Function.update rank whole.nextSeq part.nextSeq) (whole.register interest now)
      (part.register interest now) := by
  let deadline := whole.config.interestLifetime.map fun lifetime => now.add lifetime.millis
  have numbered : (⟨whole.nextSeq, deadline⟩ : Pending).renumber (Function.update rank whole.nextSeq part.nextSeq)
      = ⟨part.nextSeq, deadline⟩ := by
    simp [Pending.renumber]
  have kept : ∀ number ∈ whole.pending.numbersUnder side,
      Function.update rank whole.nextSeq part.nextSeq number = rank number :=
    fun number listed => Function.update_of_ne (Nat.ne_of_lt (mirrors.ranks.below number listed).1) _ _
  have added := (mirrors.pending.congr kept).add asks ⟨whole.nextSeq, deadline⟩
  rw [numbered] at added
  exact
    { mirrors with
      pending := by simpa only [Flow.register, mirrors.config] using added
      ranks := mirrors.ranks.extend.mono
        (Table.numbersUnder_addInterest mirrors.pending.canonical.toWellFormed) (Nat.le_refl _) }

theorem register_other (mirrors : Mirrors side other rank whole part) (apart : side.touches other = false)
    (asks : other.isPrefixOf interest.name = true) (now : Timestamp) :
    Mirrors side other rank (whole.register interest now) part :=
  { mirrors with
    pending := mirrors.pending.add_other asks _
    ranks := mirrors.ranks.mono
      (Table.numbersUnder_addInterest_of_outside mirrors.pending.canonical.toWellFormed
        (Name.isPrefixOf_eq_false (Name.touches_eq_false_comm apart) asks))
      (Nat.le_succ _) }

end Changes

/-! Puts and interests. -/

section Operations
variable {now : Timestamp}

theorem weighs_eq (mirrors : Mirrors side other rank whole part) (object : ContentObject) :
    part.weighs object = whole.weighs object := by
  simp only [weighs, covers, mirrors.closed, mirrors.enabled, mirrors.namespaces]

theorem ignores_eq (mirrors : Mirrors side other rank whole part) (interest : Interest) :
    part.ignores interest = whole.ignores interest := by
  simp only [ignores, overlaps, mirrors.closed, mirrors.namespaces]

theorem size_le (mirrors : Mirrors side other rank whole part) : part.buffer.size ≤ whole.buffer.size := by
  rw [mirrors.buffer, NameIndex.size_eq, NameIndex.size_eq, NameIndex.values_filter]
  exact List.length_filter_le _ _

theorem put (mirrors : Mirrors side other rank (whole.expire now) (part.expire now))
    (apart : side.touches other = false) (lies : side.isPrefixOf object.name = true)
    (room : ∀ highwater, (whole.put object now).1 ≠ .error (.capacity highwater)) :
    (part.put object now).1 = (whole.put object now).1 ∧
      Mirrors side other rank (whole.put object now).2 (part.put object now).2 := by
  have weighs : whole.weighs object = true := mirrors.serves object (Or.inl lies)
  have partWeighs : part.weighs object = true := (mirrors.weighs_eq object).trans weighs
  have partBest := mirrors.bestPending?_eq apart lies
  have result := put_of_weighs weighs now
  have partResult := put_of_weighs partWeighs now
  cases best : (whole.expire now).bestPending? object with
  | some candidate =>
    rw [best, Option.map_some] at partBest
    obtain ⟨transport, handed, steady⟩ := mirrors.steady.deliver object
    obtain ⟨partTransport, partHanded, partSteady⟩ := mirrors.partSteady.deliver object
    obtain ⟨asks, waits⟩ := mirrors.lies_of_waiting apart lies (Candidate.mem_of_best? best)
    simp only [best, commit_deliver_ok handed] at result
    simp only [partBest, commit_deliver_ok partHanded] at partResult
    rw [result, partResult]
    have removed := (mirrors.forward object steady partSteady).remove asks (by simpa using waits)
    rw [pending_forward, pending_forward] at removed
    exact ⟨rfl, removed⟩
  | none =>
    rw [best, Option.map_none] at partBest
    simp only [best] at result
    simp only [partBest] at partResult
    have fits : whole.isBuffered object.name = true ∨ whole.buffer.size < whole.config.highwater := by
      by_contra full
      rw [if_neg full] at result
      exact room _ (congrArg Prod.fst result)
    have partFits : part.isBuffered object.name = true ∨ part.buffer.size < part.config.highwater := by
      refine fits.imp (fun held => ?_) fun smaller => ?_
      · have same := mirrors.find?_eq (Name.isPrefixOf_eq_false apart lies)
        exact (congrArg Option.isSome same).trans held
      · rw [show part.config = whole.config from mirrors.config]
        exact Nat.lt_of_le_of_lt mirrors.size_le smaller
    rw [if_pos fits] at result
    rw [if_pos partFits] at partResult
    rw [result, partResult]
    exact ⟨rfl, mirrors.insert lies⟩

theorem put_other (mirrors : Mirrors side other rank (whole.expire now) part) (apart : side.touches other = false)
    (lies : other.isPrefixOf object.name = true) : Mirrors side other rank (whole.put object now).2 part := by
  have weighs : whole.weighs object = true := mirrors.serves object (Or.inr lies)
  have result := put_of_weighs weighs now
  cases best : (whole.expire now).bestPending? object with
  | some candidate =>
    obtain ⟨transport, handed, steady⟩ := mirrors.steady.deliver object
    simp only [best, commit_deliver_ok handed] at result
    rw [result]
    obtain ⟨waits, allowed⟩ := waiting_of_bestPending? mirrors.pending.canonical.toWellFormed best
    have asks := Interest.asks_of_matchesObject (Name.touches_eq_false_comm apart) (mayHave_iff.mp allowed).1 lies
      (mirrors.pending.lies _ waits).symm
    have removed := (mirrors.forward_other apart lies steady).remove_other asks candidate.pending
    rw [pending_forward] at removed
    exact removed
  | none =>
    simp only [best] at result
    split at result
    · rw [result]
      exact mirrors.insert_other apart lies
    · rw [result]
      exact mirrors

theorem askOne (mirrors : Mirrors side other rank whole part) (apart : side.touches other = false)
    (asks : side.isPrefixOf interest.name = true) (now : Timestamp) :
    ∃ hit after partAfter changed, whole.askOne interest now = (.ok hit, after) ∧
      part.askOne interest now = (.ok hit, partAfter) ∧ Mirrors side other changed after partAfter := by
  have partIgnores := mirrors.ignores_eq interest
  have partBest := mirrors.bestBuffered?_eq apart asks
  cases ignored : whole.ignores interest with
  | true =>
    rw [ignored] at partIgnores
    exact ⟨false, whole, part, rank, by simp [Flow.askOne, ignored], by simp [Flow.askOne, partIgnores], mirrors⟩
  | false =>
    rw [ignored] at partIgnores
    cases best : whole.bestBuffered? interest with
    | none =>
      rw [best] at partBest
      exact ⟨false, _, _, _, by simp [Flow.askOne, ignored, best], by simp [Flow.askOne, partIgnores, partBest],
        mirrors.register asks now⟩
    | some object =>
      rw [best] at partBest
      obtain ⟨transport, handed, steady⟩ := mirrors.steady.deliver object
      obtain ⟨partTransport, partHanded, partSteady⟩ := mirrors.partSteady.deliver object
      have taken := (mirrors.forward object steady partSteady).erase object.name
      rw [buffer_forward, buffer_forward] at taken
      refine ⟨true, _, _, rank, ?_, ?_, taken⟩
      · exact askOne_ok ignored best handed now
      · exact askOne_ok partIgnores partBest partHanded now

theorem askOne_other (mirrors : Mirrors side other rank whole part) (apart : side.touches other = false)
    (asks : other.isPrefixOf interest.name = true) (now : Timestamp) :
    ∃ hit after, whole.askOne interest now = (.ok hit, after) ∧ Mirrors side other rank after part := by
  cases ignored : whole.ignores interest with
  | true => exact ⟨false, whole, by simp [Flow.askOne, ignored], mirrors⟩
  | false =>
    cases best : whole.bestBuffered? interest with
    | none => exact ⟨false, _, by simp [Flow.askOne, ignored, best], mirrors.register_other apart asks now⟩
    | some object =>
      obtain ⟨transport, handed, steady⟩ := mirrors.steady.deliver object
      have lies := lies_of_bestBuffered? (Name.touches_eq_false_comm apart)
        (fun object stored => (mirrors.lies object stored).symm) asks best
      have taken := (mirrors.forward_other apart lies steady).erase_other
        (Name.isPrefixOf_eq_false (Name.touches_eq_false_comm apart) lies)
      rw [buffer_forward] at taken
      exact ⟨true, _, askOne_ok ignored best handed now, taken⟩

end Operations

end Mirrors

end NamedContent.Flow
