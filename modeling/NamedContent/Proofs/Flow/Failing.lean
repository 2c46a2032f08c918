import NamedContent.Proofs.Flow.Meeting

/-! What a request that fails leaves behind.

A put fails before it changes anything but what it forgets by age, and a batch
ends where the transport refuses an object, as if the batch had ended before. -/

set_option autoImplicit false

namespace NamedContent.Flow

variable {τ : Type} [Transport τ] {flow after : Flow τ} {failure : Failure}

theorem put_failed {object : ContentObject} {now : Timestamp} (failed : flow.put object now = (.error failure, after)) :
    (failure = .closed ∨ failure = .outsideNamespaces object.name) ∧ after = flow ∨
    failure = .capacity flow.config.highwater ∧ after = flow.expire now ∨
    ∃ fault transport, failure = .transport fault ∧
      Transport.deliver flow.transport object = (.error fault, transport) ∧
      after = { (if flow.enabled then flow.expire now else flow) with transport := transport } := by
  obtain ⟨answer, weighed, weighing, judged, result⟩ := flow.put_cases object now
  rw [result] at failed
  cases judged with
  | closed closed =>
    obtain rfl : weighed = flow := by simpa [weighs, closed] using weighing
    obtain ⟨same, rfl⟩ := Prod.mk.inj failed
    exact Or.inl ⟨Or.inl (Except.error.inj same).symm, rfl⟩
  | outside opened enabled uncovered =>
    obtain rfl : weighed = flow := by simpa [weighs, uncovered] using weighing
    obtain ⟨same, rfl⟩ := Prod.mk.inj failed
    exact Or.inl ⟨Or.inr (Except.error.inj same).symm, rfl⟩
  | full looks =>
    obtain rfl : weighed = flow.expire now := by rwa [if_pos looks] at weighing
    obtain ⟨same, rfl⟩ := Prod.mk.inj failed
    exact Or.inr (Or.inl ⟨(Except.error.inj same).symm, rfl⟩)
  | bypass opened disabled =>
    obtain rfl : weighed = flow := by simpa [weighs, disabled] using weighing
    rcases handed : Transport.deliver weighed.transport object with ⟨fault | done, transport⟩
    · simp only [commit, send_error handed] at failed
      obtain ⟨same, rfl⟩ := Prod.mk.inj failed
      exact Or.inr (Or.inr ⟨fault, transport, (Except.error.inj same).symm, rfl, by simp [disabled]⟩)
    · simp [commit, send_ok handed] at failed
  | deliver looks best =>
    obtain rfl : weighed = flow.expire now := by rwa [if_pos looks] at weighing
    have enabled : flow.enabled = true := by
      have checks : (!flow.closed && flow.enabled && flow.covers object.name) = true := looks
      simp_all
    rcases (flow.expire now).deliver_cases object with ⟨fault, transport, handed, sent⟩ | ⟨transport, -, sent⟩
    · simp only [commit, sent] at failed
      obtain ⟨same, rfl⟩ := Prod.mk.inj failed
      exact Or.inr (Or.inr ⟨fault, transport, (Except.error.inj same).symm, handed, by simp [enabled]⟩)
    · simp [commit, sent] at failed
  | buffer => exact absurd (Prod.mk.inj failed).1 (by simp)

theorem askOne_failed {interest : Interest} {now : Timestamp}
    (failed : flow.askOne interest now = (.error failure, after)) :
    ∃ object fault transport, flow.bestBuffered? interest = some object ∧
      Transport.deliver flow.transport object = (.error fault, transport) ∧
      failure = .transport fault ∧ after = { flow with transport := transport } := by
  cases heeded : flow.ignores interest with
  | true => simp [askOne, heeded] at failed
  | false =>
    cases best : flow.bestBuffered? interest with
    | none => simp [askOne, heeded, best] at failed
    | some object =>
      rw [flow.askOne_eq now heeded best] at failed
      rcases flow.deliver_cases object with ⟨fault, transport, handed, sent⟩ | ⟨transport, -, sent⟩
      · simp only [sent] at failed
        obtain ⟨same, rfl⟩ := Prod.mk.inj failed
        exact ⟨object, fault, transport, rfl, handed, (Except.error.inj same).symm, rfl⟩
      · simp [sent] at failed

theorem askEach_append (flow : Flow τ) (now : Timestamp) (answered : Nat) (first second : List Interest) :
    flow.askEach now answered (first ++ second)
      = match flow.askEach now answered first with
        | (.error failure, after) => (.error failure, after)
        | (.ok count, after) => after.askEach now count second := by
  induction first generalizing flow answered with
  | nil => rfl
  | cons interest rest ih =>
    rcases reply : flow.askOne interest now with ⟨failure | hit, after⟩
    · simp [askEach, reply]
    · simp [askEach, reply, ih]

-- A batch that fails does so at one interest, and those before it succeed.
theorem askEach_failed {now : Timestamp} {answered : Nat} {interests : List Interest}
    (failed : flow.askEach now answered interests = (.error failure, after)) :
    ∃ earlier failing rest count middle, interests = earlier ++ failing :: rest ∧
      flow.askEach now answered earlier = (.ok count, middle) ∧
      middle.askOne failing now = (.error failure, after) := by
  induction interests generalizing flow answered with
  | nil => simp [askEach] at failed
  | cons interest rest ih =>
    rcases reply : flow.askOne interest now with ⟨fault | hit, next⟩
    · simp only [askEach, reply] at failed
      obtain ⟨same, rfl⟩ := Prod.mk.inj failed
      exact ⟨[], interest, rest, answered, flow, rfl, rfl, by rw [reply, Except.error.inj same]⟩
    · simp only [askEach, reply] at failed
      obtain ⟨earlier, failing, others, count, middle, rfl, before, refused⟩ := ih failed
      exact ⟨interest :: earlier, failing, others, count, middle, rfl, by simp [askEach, reply, before], refused⟩

/-- A put that fails leaves the flow as it was or without what it forgets by age,
and a batch that fails leaves it as the interests before the failing one do. The
transport may keep whatever it likes. -/
theorem failed_requests_keep_state (config : FlowConfig) (transport : τ) (requests : List Request) :
    let flow := ((Flow.new config transport).run requests).2
    (∀ object now failure after, flow.put object now = (.error failure, after) →
      (failure = .closed ∨ failure = .outsideNamespaces object.name) ∧ after = flow ∨
      failure = .capacity flow.config.highwater ∧ after = flow.expire now ∨
      ∃ fault, failure = .transport fault ∧
        after = { (if flow.enabled then flow.expire now else flow) with transport := after.transport }) ∧
    ∀ interests now failure after, flow.ask interests now = (.error failure, after) →
      ∃ earlier failing rest, interests = earlier ++ failing :: rest ∧
        flow.ask (earlier ++ [failing]) now = (.error failure, after) ∧
        ∃ count middle, flow.ask earlier now = (.ok count, middle) ∧
          after = { middle with transport := after.transport } ∧
          ∃ object fault, middle.bestBuffered? failing = some object ∧ object ∈ after.buffer.values ∧
            failure = .transport fault := by
  intro flow
  refine ⟨?_, ?_⟩
  · intro object now failure after failed
    rcases put_failed failed with early | full | ⟨fault, transport, refused, -, rfl⟩
    · exact Or.inl early
    · exact Or.inr (Or.inl full)
    · exact Or.inr (Or.inr ⟨fault, refused, rfl⟩)
  · intro interests now failure after failed
    obtain ⟨earlier, failing, rest, count, middle, divided, before, refused⟩ := askEach_failed failed
    obtain ⟨object, fault, transport, best, -, same, rfl⟩ := askOne_failed refused
    refine ⟨earlier, failing, rest, divided, ?_, count, middle, before, rfl, object, fault, best,
      (bestBuffered?_cases best).1, same⟩
    rw [ask, askEach_append, before]
    simp [askEach, refused]

namespace Sample

def stalled : List Request := [.addNamespace Sample.stream, .put (segment 3) ⟨1000⟩, .ask [follower 0] ⟨1000⟩]

end Sample

open Flow.Sample in
theorem stalled_requests_keep_state :
    let flow := ((Flow.new .standard (⟨[], some 0⟩ : Recorder)).run stalled).2
    (∃ failure after, flow.put (segment 1) ⟨2000⟩ = (.error failure, after) ∧ ∃ fault, failure = .transport fault ∧
      after = { flow.expire ⟨2000⟩ with transport := after.transport }) ∧
    ∃ failure after, flow.ask [exactly 9, exactly 3, exactly 4] ⟨2000⟩ = (.error failure, after) ∧
      ∃ earlier failing rest, [exactly 9, exactly 3, exactly 4] = earlier ++ failing :: rest ∧
        ∃ count middle, flow.ask earlier ⟨2000⟩ = (.ok count, middle) ∧
          after = { middle with transport := after.transport } := by
  intro flow
  obtain ⟨puts, asks⟩ := failed_requests_keep_state .standard (⟨[], some 0⟩ : Recorder) stalled
  have put : flow.put (segment 1) ⟨2000⟩ = (.error (.transport .disconnected), (flow.put (segment 1) ⟨2000⟩).2) := by
    rw [← show (flow.put (segment 1) ⟨2000⟩).1 = .error (.transport .disconnected) by decide +kernel]
  have asked : flow.ask [exactly 9, exactly 3, exactly 4] ⟨2000⟩
      = (.error (.transport .disconnected), (flow.ask [exactly 9, exactly 3, exactly 4] ⟨2000⟩).2) := by
    rw [← show (flow.ask [exactly 9, exactly 3, exactly 4] ⟨2000⟩).1
      = .error (.transport .disconnected) by decide +kernel]
  refine ⟨⟨_, _, put, ?_⟩, _, _, asked, ?_⟩
  · have enabled : flow.enabled = true := by decide +kernel
    rcases puts _ _ _ _ put with ⟨closed | outside, -⟩ | ⟨full, -⟩ | kept
    · exact absurd closed (by simp)
    · exact absurd outside (by simp)
    · exact absurd full (by simp)
    · rwa [if_pos enabled] at kept
  · obtain ⟨earlier, failing, rest, divided, -, count, middle, before, same, -⟩ := asks _ _ _ _ asked
    exact ⟨earlier, failing, rest, divided, count, middle, before, same⟩

end NamedContent.Flow
