import NamedContent.Proofs.Name.Prefix

/-! Comparing names up to a limit.

Up to a limit that the second name reaches, and up to one beyond the first name, the
comparison is that of the truncated names. A second name that gives out in between
is compared as far as it goes, so the comparison then depends on which name is
asked about which. -/

set_option autoImplicit false

namespace NamedContent.Name

variable {name other : Name} {limit : Nat}

/-- A name gives out before a limit that another one reaches, and begins that one. -/
structure GivesOut (other name : Name) (limit : Nat) : Prop where
  begins : other.isPrefixOf name = true
  short : other.length < limit
  reached : limit ≤ name.length

-- What is cut to the limit is longer than a name that gives out before.
theorem take_ne_take (short : other.length < limit) (reached : limit ≤ name.length) :
    name.take limit ≠ other.take limit := by
  intro same
  have widths := congrArg length same
  rw [length_take_eq, length_take_eq] at widths
  omega

theorem equalsUpTo_of_le (first : limit ≤ name.length) (second : limit ≤ other.length) :
    name.equalsUpTo other limit = true ↔ name.take limit = other.take limit := by
  have common : min (min limit name.length) other.length = limit := by omega
  rw [equalsUpTo, if_neg (fun beyond => Nat.not_lt.mpr first beyond.1)]
  simp only [common, beq_iff_eq, ← components_inj, take]

theorem equalsUpTo_of_gt (beyond : name.length < limit) :
    name.equalsUpTo other limit = true ↔ name.take limit = other.take limit := by
  rw [take_of_length_le (Nat.le_of_lt beyond)]
  by_cases level : other.length = name.length
  · have common : min (min limit name.length) other.length = name.length := by omega
    have whole : other.take limit = other := take_of_length_le (by omega)
    rw [equalsUpTo, if_neg (fun apart => apart.2 level), whole, ← components_inj]
    simp only [common, beq_iff_eq]
    rw [length, List.take_length, ← length, ← level, length, List.take_length]
  · rw [equalsUpTo, if_pos ⟨beyond, level⟩]
    simp only [Bool.false_eq_true, false_iff]
    intro same
    have widths := congrArg length same
    rw [length_take_eq] at widths
    omega

theorem equalsUpTo_of_short (short : other.length < limit) (reached : limit ≤ name.length) :
    name.equalsUpTo other limit = true ↔ other.isPrefixOf name = true := by
  have common : min (min limit name.length) other.length = other.length := by omega
  rw [equalsUpTo, if_neg (fun beyond => Nat.not_lt.mpr reached beyond.1), isPrefixOf_iff, List.prefix_iff_eq_take]
  simp only [common, beq_iff_eq]
  rw [length, List.take_length]
  exact eq_comm

theorem equalsUpTo_iff :
    name.equalsUpTo other limit = true ↔ name.take limit = other.take limit ∨ other.GivesOut name limit := by
  by_cases reached : limit ≤ name.length
  · by_cases short : other.length < limit
    · rw [equalsUpTo_of_short short reached]
      constructor
      · exact fun begins => Or.inr ⟨begins, short, reached⟩
      · rintro (same | out)
        · exact absurd same (take_ne_take short reached)
        · exact out.begins
    · rw [equalsUpTo_of_le reached (Nat.not_lt.mp short)]
      exact (or_iff_left fun out => short out.short).symm
  · rw [equalsUpTo_of_gt (Nat.not_le.mp reached)]
    exact (or_iff_left fun out => reached out.reached).symm

theorem GivesOut.equalsUpTo (out : other.GivesOut name limit) : name.equalsUpTo other limit = true :=
  equalsUpTo_iff.mpr (Or.inr out)

theorem GivesOut.equalsUpTo_back (out : other.GivesOut name limit) : other.equalsUpTo name limit = false := by
  rw [← Bool.not_eq_true, equalsUpTo_iff]
  rintro (same | back)
  · exact take_ne_take out.short out.reached same.symm
  · have beyond := Nat.lt_of_lt_of_le out.short out.reached
    exact absurd (Nat.lt_of_lt_of_le back.short back.reached) (Nat.lt_asymm beyond)

/-- Names agree up to a limit exactly if they are the same once truncated to it, or
the second gives out before the limit and begins the first, which reaches it. So
comparing up to a limit is comparing truncations exactly where the second name does
not give out like this, and the two ways round agree exactly where neither does. -/
theorem equalsUpTo_compares_truncations_iff (name other : Name) (limit : Nat) :
    (name.equalsUpTo other limit = true ↔ name.take limit = other.take limit ∨ other.GivesOut name limit) ∧
    ((name.equalsUpTo other limit = true ↔ name.take limit = other.take limit) ↔ ¬ other.GivesOut name limit) ∧
    (name.equalsUpTo other limit = other.equalsUpTo name limit ↔
      ¬ other.GivesOut name limit ∧ ¬ name.GivesOut other limit) := by
  refine ⟨equalsUpTo_iff, ?_, ?_⟩
  · rw [equalsUpTo_iff]
    constructor
    · exact fun compares out => take_ne_take out.short out.reached (compares.mp (Or.inr out))
    · exact or_iff_left
  · constructor
    · intro agree
      constructor
      · exact fun out => absurd (agree.symm.trans out.equalsUpTo) (by simp [out.equalsUpTo_back])
      · exact fun out => absurd (agree.trans out.equalsUpTo) (by simp [out.equalsUpTo_back])
    · rintro ⟨forth, back⟩
      rw [Bool.eq_iff_iff, equalsUpTo_iff, equalsUpTo_iff, or_iff_left forth, or_iff_left back]
      exact eq_comm

theorem shorter_name_agrees_beyond_its_end :
    let long := ofBytes [[0x78], [0x79]]
    let short := ofBytes [[0x78]]
    long.equalsUpTo short 2 = true ∧ long.take 2 ≠ short.take 2 ∧ short.equalsUpTo long 2 = false := by
  decide

end NamedContent.Name
