import LRGrammar.Event

/-!
# LRGrammar.Validation.Check

A check finds a grammar in order or tells what is wrong with it, and logs what
it saw.  Checks are made one after the other until one fails.

* `Check.blame_verdict` — what is blamed, in terms of the symbols that are bad;
* `Check.value_followedBy`, `Check.events_followedBy_of_ok`,
  `Check.followedBy_of_error` — what two checks in a row find and log.
-/

namespace LRGrammar

/-- A verdict, with the events of reaching it. -/
abbrev Check := Logged (Except Fault Unit)

namespace Check

/-- Symbols are to blame, unless there are none. -/
def blame (fault : SymbolSet → Fault) (symbols : SymbolSet) : Except Fault Unit :=
  if symbols.isEmpty then .ok () else .error (fault symbols)

/-- A check passes if it has nothing to blame. -/
theorem blame_eq_ok_iff {fault : SymbolSet → Fault} {symbols : SymbolSet} :
    blame fault symbols = .ok () ↔ symbols = ∅ := by
  by_cases h : symbols.isEmpty <;> simp_all [blame, Std.ExtTreeSet.isEmpty_iff]

/-- Where exactly the bad symbols are blamed, the check passes if and only if there is
no bad symbol, and otherwise names all of them and no other. -/
theorem blame_verdict (fault : SymbolSet → Fault) {symbols : SymbolSet} {Bad : Symbol → Prop}
    (h : ∀ s, s ∈ symbols ↔ Bad s) :
    (blame fault symbols = .ok () ↔ ∀ s, ¬ Bad s) ∧
      (blame fault symbols = .ok () ∨
        ∃ set, blame fault symbols = .error (fault set) ∧ ∀ s, s ∈ set ↔ Bad s) := by
  constructor
  · rw [blame_eq_ok_iff]
    constructor
    · rintro rfl s hs
      exact Std.ExtTreeSet.not_mem_empty ((h s).mpr hs)
    · intro hnone
      apply Std.ExtTreeSet.ext_mem
      intro s
      simp [h, hnone]
  · by_cases hempty : symbols.isEmpty
    · exact .inl (by rw [blame, if_pos hempty])
    · exact .inr ⟨symbols, by rw [blame, if_neg hempty], h⟩

/-- A check that has something to blame blames all of it. -/
theorem blame_eq_error_iff {fault : SymbolSet → Fault} {symbols : SymbolSet} {found : Fault} :
    blame fault symbols = .error found ↔ symbols ≠ ∅ ∧ fault symbols = found := by
  by_cases h : symbols.isEmpty <;> simp_all [blame, Std.ExtTreeSet.isEmpty_iff]

/-- Where more symbols are bad, a check that failed fails again and blames no fewer symbols. -/
theorem exists_blame_of_subset {fault : SymbolSet → Fault}
    (injective : ∀ a b, fault a = fault b → a = b) {symbols more blamed : SymbolSet}
    (hsub : ∀ s ∈ symbols, s ∈ more) (h : blame fault symbols = .error (fault blamed)) :
    ∃ blamed', blame fault more = .error (fault blamed') ∧ ∀ s ∈ blamed, s ∈ blamed' := by
  obtain ⟨hne, heq⟩ := blame_eq_error_iff.mp h
  obtain rfl : symbols = blamed := injective _ _ heq
  refine ⟨more, blame_eq_error_iff.mpr ⟨?_, rfl⟩, hsub⟩
  rintro rfl
  refine hne (Std.ExtTreeSet.ext_mem fun s => ?_)
  simpa using hsub s

/-- Make the second check if the first one passes. -/
def followedBy (first second : Check) : Check :=
  first.andThen fun
    | .ok () => second
    | .error fault => .silent (.error fault)

/-- Two checks pass if both do, and the first fault counts. -/
theorem value_followedBy (first second : Check) :
    (first.followedBy second).value = first.value.bind fun _ => second.value := by
  rcases first with ⟨_ | _, _⟩ <;> rfl

/-- A check that always passes may stand last. -/
theorem value_followedBy_passing {first second : Check} (h : second.value = .ok ()) :
    (first.followedBy second).value = first.value := by
  rw [value_followedBy, h]
  cases first.value <;> rfl

/-- Two checks in a row pass when both of them do. -/
theorem value_followedBy_eq_ok_iff {first second : Check} :
    (first.followedBy second).value = .ok () ↔ first.value = .ok () ∧ second.value = .ok () := by
  rw [value_followedBy]
  cases first.value with
  | error fault => simp [Except.bind]
  | ok verdict => simp [Except.bind]

theorem events_followedBy_of_ok {first second : Check} (h : first.value = .ok ()) :
    (first.followedBy second).events = first.events ++ second.events := by
  rcases first with ⟨_ | _, _⟩ <;> simp_all [followedBy, Logged.andThen]

/-- A check that fails is not followed by another. -/
theorem followedBy_of_error {first second : Check} {fault : Fault}
    (h : first.value = .error fault) :
    first.followedBy second = first := by
  rcases first with ⟨_ | _, _⟩ <;> simp_all [followedBy, Logged.andThen, Logged.silent]

end Check

end LRGrammar
