import StackBackend.Proofs.RationalArithmetic

namespace StackBackend

/-! The routine for lowest terms as its callers see it. Every call comes to an end, for the
least word too, whose magnitude is negative: with the fault of zero denominators, or back at
the caller with a fraction on the stack. Apart from the five cells of the routine, memory is
as it was before the call. -/

/-- Writing into cells that hold no text keeps the texts. -/
theorem Texts.of_only {code : Code} {image : Image} {size : Int32}
    (prepared : Prepared code image size) {before after : Memory} {names : List String}
    (texts : Texts image before) (lays : ∀ name ∈ names, code.Lays name 4)
    (other : ∀ name ∈ names, name ∉ Environment.texts.map Prod.fst)
    (only : Cells.Only image.word names before after) : Texts image after := by
  intro cell text member
  refine (texts cell text member).congr only.size fun index lower upper => only.kept index ?_
  intro name named
  have different : cell ≠ name := fun same =>
    other name named (same ▸ List.mem_map.mpr ⟨(cell, text), member, rfl⟩)
  have apart := Image.places_apart prepared.assembled (prepared.lays_text member)
    (lays name named) different
  have below := Image.place_add_le prepared.assembled (lays name named)
  have fits := prepared.fits
  rw [Image.index_word prepared.assembled (lays name named) (by omega)]
  omega

namespace Program

variable {program : Program} {options : CompileOptions} {code : Code} {image : Image}
  {memory : Memory} {here position : Nat}

/-- A call of the routine with two words on the stack ends in the fault if the second one is
zero, and prints its report. Otherwise it returns with a fraction: nothing over one if the
first word is zero, and the same number in lowest terms, with a positive denominator, if
neither word is the least one. -/
theorem reduction_ends (compiled : program.compile options = .ok code)
    (assembled : Image.assemble code = .ok image) (addressable : image.Addressable)
    (fits : image.dataSize ≤ 2147483647) (inside : image.dataSize ≤ memory.size)
    (marks : image.Marks Entry.lowestTerms here) (returns : position ≤ image.code.size)
    (fraction : Fraction) (stack : List Word) (output : ByteArray) (limit : Option Nat) :
    ∃ after, Cells.Only image.word LowestTerms.cells memory after ∧
      (fraction.denominator = 0 →
        ∃ handler, image.Marks Fault.rationalZeroDenominator.handler handler ∧
          Runs image limit ⟨here, .integer (Int32.ofNat position) ::
            .integer fraction.denominator :: .integer fraction.numerator :: stack, memory, output⟩
            ⟨handler, stack, after, output⟩ ∧
          (Texts image memory → ∃ stop rest, image.Holds (.halt :: rest) stop ∧
            Runs image none ⟨handler, stack, after, output⟩ ⟨stop, stack, after,
              written output (Exit.fault .rationalZeroDenominator).report⟩)) ∧
      (fraction.denominator ≠ 0 →
        ∃ result : Fraction,
          Runs image limit ⟨here, .integer (Int32.ofNat position) ::
            .integer fraction.denominator :: .integer fraction.numerator :: stack, memory, output⟩
            ⟨position, .integer result.denominator :: .integer result.numerator :: stack, after,
              output⟩ ∧
          (fraction.numerator = 0 → result = ⟨0, 1⟩) ∧
          (fraction.numerator ≠ 0 → fraction.Ordinary →
            0 < result.denominator.toInt ∧
            Int.gcd result.numerator.toInt result.denominator.toInt = 1 ∧
            result.numerator.toInt * fraction.denominator.toInt =
              fraction.numerator.toInt * result.denominator.toInt)) := by
  obtain ⟨body, composed⟩ := exists_composed compiled
  have prepared := composed.prepared assembled addressable fits
  have installed := prepared.lowestTerms_installed
  by_cases defined : fraction.denominator = 0
  · obtain ⟨handler, handlerMarks⟩ := installed.fault
    obtain ⟨after, only, faults⟩ :=
      LowestTerms.runs_fault installed marks inside handlerMarks defined
    refine ⟨after, only, fun _ => ⟨handler, handlerMarks, faults, fun texts => ?_⟩,
      fun nonzero => absurd defined nonzero⟩
    have kept := texts.of_only prepared prepared.lays_lowestTerms (by decide) only
    exact prepared.reports kept handlerMarks stack output
  · obtain ⟨after, only, delivers⟩ := LowestTerms.delivers_reduced installed marks inside returns
    obtain ⟨result, reduced⟩ :=
      Option.ne_none_iff_exists'.mp (Fraction.reduced_eq_none.not.mpr defined)
    rw [reduced] at delivers
    refine ⟨after, only, fun zero => absurd zero defined, fun _ => ⟨result, delivers, ?_, ?_⟩⟩
    · intro zero
      rw [Fraction.reduced, if_neg defined, if_pos zero] at reduced
      exact (Option.some.inj reduced).symm
    · intro _ ordinary
      obtain ⟨canonical, same⟩ := Fraction.canonical_reduced ordinary reduced
      exact ⟨canonical.positive, canonical.coprime, same.symm⟩

/-- Six over minus four is reduced, and six over zero is reported. -/
theorem sixes_reduced :
    ∃ code image here memory, (forming 6 (-4)).compile ⟨true⟩ = .ok code ∧
      Image.assemble code = .ok image ∧ image.Addressable ∧ image.dataSize ≤ 2147483647 ∧
      image.dataSize ≤ memory.size ∧ image.Marks Entry.lowestTerms here ∧
      0 ≤ image.code.size ∧ Texts image memory ∧
      (∃ result after, Runs image none ⟨here, [.integer (Int32.ofNat 0), .integer (-4), .integer 6],
          memory, .empty⟩ ⟨0, [.integer (Fraction.denominator result),
            .integer result.numerator], after, .empty⟩ ∧
        0 < result.denominator.toInt ∧
        Int.gcd result.numerator.toInt result.denominator.toInt = 1 ∧
        result.numerator.toInt * (-4) = 6 * result.denominator.toInt) ∧
      ∃ stop rest after, image.Holds (.halt :: rest) stop ∧
        Runs image none ⟨here, [.integer (Int32.ofNat 0), .integer 0, .integer 6], memory, .empty⟩
          ⟨stop, [], after, written .empty (Exit.fault .rationalZeroDenominator).report⟩ := by
  obtain ⟨code, image, _, compiled, assembled, addressable, fits, _⟩ :=
    exists_forming_image 6 (-4) (by decide +kernel)
  obtain ⟨body, composed⟩ := exists_composed compiled
  have prepared := composed.prepared assembled addressable (by omega)
  obtain ⟨here, marks, _⟩ := prepared.lowestTerms_installed.atEntry
  have texts : Texts image (image.initialState 65536).memory := Texts.initial prepared fits
  have inside : image.dataSize ≤ (image.initialState 65536).memory.size := by
    rwa [image.size_initialState 65536]
  refine ⟨code, image, here, (image.initialState 65536).memory, compiled, assembled, addressable,
    by omega, inside, marks, Nat.zero_le _, texts, ?_, ?_⟩
  · obtain ⟨after, _, _, reduces⟩ := reduction_ends compiled assembled addressable (by omega) inside
      marks (Nat.zero_le _) ⟨6, -4⟩ [] .empty none
    obtain ⟨result, runs, _, lowest⟩ := reduces (by decide)
    exact ⟨result, after, runs, lowest (by decide) ⟨by decide, by decide⟩⟩
  · obtain ⟨after, _, faults, _⟩ := reduction_ends compiled assembled addressable (by omega) inside
      marks (Nat.zero_le _) ⟨6, 0⟩ [] .empty none
    obtain ⟨handler, _, runs, reports⟩ := faults rfl
    obtain ⟨stop, rest, halts, prints⟩ := reports texts
    exact ⟨stop, rest, after, halts, runs.trans prints⟩

end Program

end StackBackend
