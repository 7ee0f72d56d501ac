import LRGrammar.Proofs.Reachability
import LRGrammar.Proofs.Verdicts
import Mathlib.Data.List.Chain

/-!
# LRGrammar.Proofs.Trace

The events of a validation tell what it finds.  Each stage that passes logs an event that
raises no alarm; a stage that fails ends the trace with an event which counts what is
wrong.  Stages that keep this rule keep it one after the other (`Check.Faithful`).  The only
exception are the unreachable symbols of a relaxed validation: their count may be followed
by the warning that they are ignored, and by nothing else.

* `Check.Faithful.followedBy` — faithful checks in a row;
* `Grammar.exists_faithful_validate` — a validation is faithful, and logs at its end that
  the grammar is valid if it is;
* `Grammar.warned_or_not` — when unreachable symbols are warned of, and what is said of them;
* `Grammar.events_validate` — what the events of a validation tell.
-/

namespace LRGrammar

/-- The names in a set come in increasing order. -/
theorem SymbolSet.sorted_toList (symbols : SymbolSet) : symbols.toList.Pairwise (· < ·) := by
  have ordered : symbols.toList.Pairwise (compare · · = .lt) := Std.ExtTreeSet.ordered_toList
  exact ordered.imp fun h => compareOfLessAndEq_eq_lt.mp h

/-! ## what an event tells -/

namespace Event

variable {e : Event}

/-- What the event counts under the name; nothing, if it has no such count. -/
def count (e : Event) (name : String) : Nat :=
  match e.fields.lookup name with
  | some (.count n) => n
  | _ => 0

/-- The event raises no alarm where `next` is logged right after it: it does not tell of a
failed check of well-foundedness, it counts no symbol on a loop, and it counts unreachable
symbols only before the warning that they are ignored. -/
structure MayPrecede (e next : Event) : Prop where
  not_failed : e.message ≠ "well-foundedness check failed"
  broken : e.count "broken" = 0
  unreachable : e.count "unreachable" = 0 ∨ next.message = "ignoring unreachable symbols"

/-- The event raises no alarm, whatever comes next. -/
def Harmless (e : Event) : Prop := ∀ next, e.MayPrecede next

/-- An event that counts nothing broken and nothing unreachable tells of no fault. -/
theorem harmless_of_counts (hkind : ∀ sweeps stuck, e ≠ .illFounded sweeps stuck)
    (hbroken : e.count "broken" = 0) (hunreachable : e.count "unreachable" = 0) : e.Harmless := by
  refine fun _ => ⟨fun hmessage => ?_, hbroken, .inl hunreachable⟩
  cases e with
  | illFounded sweeps stuck => exact hkind sweeps stuck rfl
  | _ => simp [message] at hmessage

end Event

/-- The message of the stage that finds the fault, and the name under which it counts what
is wrong. -/
def Fault.report : Fault → Option (String × String)
  | .bogusToken _ => some ("checking for bogus symbols", "bogons")
  | .illFounded _ => some ("well-foundedness check failed", "stuck")
  | .unreachable _ => some ("checked reachability", "unreachable")
  | .renamingLoop _ => some ("checked rename loops", "broken")
  | .epsilonLoop _ => some ("checked epsilon loops", "broken")
  | _ => none

namespace Event

variable {e : Event} {fault : Fault} {name : String} {symbols : SymbolSet}

/-- The event is that of the stage which finds the fault, and counts what is wrong: something,
and just the symbols of the set that the fault names, if it names one. -/
def TellsOf (e : Event) (fault : Fault) : Prop :=
  ∃ name, fault.report = some (e.message, name) ∧ e.count name ≠ 0 ∧
    ∀ set, fault.symbolSet = some set → e.count name = set.size

/-- An event with the size of the blamed set tells of the fault. -/
theorem tellsOf_of_size (hreport : fault.report = some (e.message, name))
    (hset : fault.symbolSet = some symbols) (hcount : e.count name = symbols.size)
    (hne : symbols ≠ ∅) : e.TellsOf fault := by
  refine ⟨name, hreport, ?_, fun set heq => ?_⟩
  · rw [hcount]
    exact mt Std.ExtTreeSet.eq_empty_iff_size_eq_zero.mpr hne
  · obtain rfl : symbols = set := Option.some.inj (hset.symm.trans heq)
    exact hcount

/-- No event of a failing stage has the message of a valid grammar. -/
theorem TellsOf.message_ne (h : e.TellsOf fault) : e.message ≠ "grammar is valid" := by
  obtain ⟨name, hreport, -, -⟩ := h
  intro hmessage
  cases fault <;> simp [Fault.report, hmessage] at hreport

end Event

/-! ## faithful checks -/

namespace Check

variable {check first second : Check} {e : Event} {fault : SymbolSet → Fault}
  {symbols : SymbolSet}

/-- The events of the check raise no alarm, except that one ends them if the check fails. -/
structure Faithful (check : Check) : Prop where
  chain : check.events.IsChain Event.MayPrecede
  harmless_last : check.value = .ok () → ∀ last ∈ check.events.getLast?, last.Harmless
  tells : ∀ fault, check.value = .error fault →
    ∃ last, check.events.getLast? = some last ∧ last.TellsOf fault

/-- A check that logs one event. -/
theorem faithful_of_single (hevents : check.events = [e])
    (hok : check.value = .ok () → e.Harmless)
    (herror : ∀ fault, check.value = .error fault → e.TellsOf fault) : check.Faithful where
  chain := by
    rw [hevents]
    exact List.isChain_singleton e
  harmless_last hvalue last hlast := by
    obtain rfl : e = last := by simpa [hevents] using hlast
    exact hok hvalue
  tells found hvalue := ⟨e, by rw [hevents]; rfl, herror found hvalue⟩

/-- A check that blames symbols, and logs one event to count them. -/
theorem faithful_of_blame (hvalue : check.value = blame fault symbols)
    (hevents : check.events = [e]) (hharmless : symbols.size = 0 → e.Harmless)
    (htells : symbols ≠ ∅ → e.TellsOf (fault symbols)) : check.Faithful := by
  refine faithful_of_single hevents (fun hok => ?_) fun found herror => ?_
  · have hempty : symbols = ∅ := blame_eq_ok_iff.mp (hvalue.symm.trans hok)
    exact hharmless (Std.ExtTreeSet.eq_empty_iff_size_eq_zero.mp hempty)
  · obtain ⟨hne, rfl⟩ := blame_eq_error_iff.mp (hvalue.symm.trans herror)
    exact htells hne

/-- Faithful checks in a row are faithful. -/
theorem Faithful.followedBy (h : first.Faithful) (k : second.Faithful) :
    (first.followedBy second).Faithful := by
  cases hfirst : first.value with
  | error found => rwa [followedBy_of_error hfirst]
  | ok passed =>
      have hevents : (first.followedBy second).events = first.events ++ second.events :=
        events_followedBy_of_ok hfirst
      have hvalue : (first.followedBy second).value = second.value := by
        rw [value_followedBy, hfirst]
        rfl
      constructor
      · rw [hevents, List.isChain_append]
        exact ⟨h.chain, k.chain, fun last hlast next _ => h.harmless_last hfirst last hlast next⟩
      · intro hok last hlast
        rw [hvalue] at hok
        rw [hevents, List.getLast?_append, Option.mem_def, Option.or_eq_some_iff] at hlast
        rcases hlast with hlast | ⟨-, hlast⟩
        · exact k.harmless_last hok last hlast
        · exact h.harmless_last hfirst last hlast
      · intro found herror
        rw [hvalue] at herror
        obtain ⟨last, hlast, tells⟩ := k.tells found herror
        exact ⟨last, by rw [hevents, List.getLast?_append, hlast, Option.some_or], tells⟩

/-! ## warnings -/

/-- The events that warn of ignored symbols. -/
def warnings (check : Check) : List Event :=
  check.events.filter (·.message = "ignoring unreachable symbols")

/-- Both checks may warn, if the first one passes. -/
theorem warnings_followedBy_of_ok (h : first.value = .ok ()) :
    (first.followedBy second).warnings = first.warnings ++ second.warnings := by
  rw [warnings, events_followedBy_of_ok h, List.filter_append]
  rfl

/-- A check that fails has the last word. -/
theorem warnings_followedBy_of_error {found : Fault} (h : first.value = .error found) :
    (first.followedBy second).warnings = first.warnings := by
  rw [followedBy_of_error h]

/-- A check that warns of nothing adds no warning. -/
theorem warnings_followedBy_of_eq_nil (h : second.warnings = []) :
    (first.followedBy second).warnings = first.warnings := by
  cases hfirst : first.value with
  | error found => exact warnings_followedBy_of_error hfirst
  | ok passed => rw [warnings_followedBy_of_ok hfirst, h, List.append_nil]

end Check

namespace Grammar

variable {ο : Type} {g : Grammar ο}

/-! ## the single stages -/

/-- The check of bogus tokens logs what it finds. -/
theorem faithful_checkBogusTokens (g : Grammar ο) : g.checkBogusTokens.Faithful := by
  refine Check.faithful_of_single rfl
    (fun _ => Event.harmless_of_counts nofun rfl rfl) fun found herror => ?_
  obtain ⟨id, hid, rfl⟩ := checkBogusTokens_eq_error_iff.mp herror
  refine ⟨"bogons", rfl, fun hcount => ?_, fun set heq => by contradiction⟩
  -- the body of the rule that is blamed has a bogus symbol, so there is one
  obtain ⟨⟨r, -, x, -, hx⟩, -⟩ := firstProducing_eq_some_iff.mp hid
  rw [Std.ExtTreeSet.eq_empty_iff_size_eq_zero.mpr hcount] at hx
  exact Std.ExtTreeSet.not_mem_empty hx

/-- The check of well-foundedness logs what it finds. -/
theorem faithful_checkWellFounded (g : Grammar ο) : g.checkWellFounded.Faithful := by
  by_cases hstuck : g.settling.stuck = ∅
  · refine Check.faithful_of_blame (e := .wellFounded g.settling.sweeps) rfl ?_
      (fun _ => Event.harmless_of_counts nofun rfl rfl) fun hne => absurd hstuck hne
    simp [checkWellFounded, hstuck]
  · refine Check.faithful_of_blame
      (e := .illFounded g.settling.sweeps g.settling.stuck.size) rfl ?_
      (fun hsize => absurd (Std.ExtTreeSet.eq_empty_iff_size_eq_zero.mpr hsize) hstuck)
      (Event.tellsOf_of_size rfl rfl rfl)
    simp [checkWellFounded, hstuck, Std.ExtTreeSet.isEmpty_iff]

/-- The check of reachability logs what it finds. -/
theorem faithful_checkReachability (g : Grammar ο) : g.checkReachability.Faithful :=
  Check.faithful_of_blame rfl rfl
    (fun hsize => Event.harmless_of_counts nofun rfl hsize)
    (Event.tellsOf_of_size rfl rfl rfl)

/-- The check of rename loops logs what it finds. -/
theorem faithful_checkRenameLoops (g : Grammar ο) : g.checkRenameLoops.Faithful :=
  Check.faithful_of_blame rfl rfl
    (fun hsize => Event.harmless_of_counts nofun hsize rfl)
    (Event.tellsOf_of_size rfl rfl rfl)

theorem faithful_checkEpsilonLoopsWith (g : Grammar ο) (sets : FirstSets) :
    (g.checkEpsilonLoopsWith sets).Faithful :=
  Check.faithful_of_blame rfl rfl
    (fun hsize => Event.harmless_of_counts nofun hsize rfl)
    (Event.tellsOf_of_size rfl rfl rfl)

/-- Stages that only announce something always pass. -/
theorem faithful_announcement {e : Event} (h : e.Harmless) :
    Check.Faithful ⟨.ok (), [e]⟩ :=
  Check.faithful_of_single rfl (fun _ => h) fun _ herror => by contradiction

/-- The check of epsilon loops logs what it finds. -/
theorem faithful_checkEpsilonLoops (g : Grammar ο) : g.checkEpsilonLoops.Faithful := by
  have computed : Check.Faithful ⟨.ok (), g.firstAnalysis.events⟩ :=
    faithful_announcement (Event.harmless_of_counts nofun rfl rfl)
  exact computed.followedBy (g.faithful_checkEpsilonLoopsWith g.firstSets)

/-! ## the relaxed check of reachability -/

/-- Where all is reachable, there is nothing to warn of. -/
theorem warnOfUnreachable_of_empty (h : g.unreachable = ∅) :
    g.warnOfUnreachable = g.checkReachability := by
  have hpass : g.checkReachability.value = .ok () := Check.blame_eq_ok_iff.mpr h
  unfold warnOfUnreachable
  split
  · next symbols events heq =>
      rw [heq] at hpass
      contradiction
  · rfl

/-- Unreachable symbols are counted and warned of, and the check passes. -/
theorem warnOfUnreachable_of_ne_empty (h : g.unreachable ≠ ∅) :
    g.warnOfUnreachable =
      ⟨.ok (), [.reachability g.reachable.size g.unreachable.size,
        .unreachableIgnored g.unreachable]⟩ := by
  have hfails : g.checkReachability =
      ⟨.error (.unreachable g.unreachable),
        [.reachability g.reachable.size g.unreachable.size]⟩ := by
    have hvalue := checkReachability_eq_error_iff.mpr ⟨h, rfl⟩
    rw [← hvalue]
    rfl
  rw [warnOfUnreachable, hfails]
  rfl

theorem faithful_warnOfUnreachable (g : Grammar ο) : g.warnOfUnreachable.Faithful := by
  by_cases hempty : g.unreachable = ∅
  · rw [warnOfUnreachable_of_empty hempty]
    exact g.faithful_checkReachability
  · rw [warnOfUnreachable_of_ne_empty hempty]
    constructor
    · exact List.isChain_pair.mpr ⟨by simp [Event.message], rfl, .inr rfl⟩
    · intro _ last hlast
      obtain rfl : Event.unreachableIgnored g.unreachable = last := by simpa using hlast
      exact Event.harmless_of_counts nofun rfl rfl
    · intro fault herror
      contradiction

/-! ## the whole validation -/

/-- A validation is faithful all the way, and adds at its end that the grammar is valid. -/
theorem exists_faithful_validate (g : Grammar ο) (allowUnreachable : Bool) :
    ∃ stages : Check, stages.Faithful ∧
      g.validate allowUnreachable = stages.followedBy ⟨.ok (), [.valid]⟩ := by
  have announced : Check.Faithful
      ⟨.ok (), [.validating g.symbols.size g.ruleCount g.starts.length]⟩ :=
    faithful_announcement (Event.harmless_of_counts nofun rfl rfl)
  have reachability :
      (if allowUnreachable then g.warnOfUnreachable else g.checkReachability).Faithful := by
    cases allowUnreachable with
    | false => exact g.faithful_checkReachability
    | true => exact g.faithful_warnOfUnreachable
  refine ⟨_, ?_, rfl⟩
  exact announced
    |>.followedBy g.faithful_checkBogusTokens
    |>.followedBy g.faithful_checkWellFounded
    |>.followedBy reachability
    |>.followedBy g.faithful_checkRenameLoops
    |>.followedBy g.faithful_checkEpsilonLoops

/-- The validation logs what it finds. -/
theorem faithful_validate (g : Grammar ο) (allowUnreachable : Bool) :
    (g.validate allowUnreachable).Faithful := by
  obtain ⟨stages, hfaithful, hvalidate⟩ := g.exists_faithful_validate allowUnreachable
  rw [hvalidate]
  exact hfaithful.followedBy (faithful_announcement (Event.harmless_of_counts nofun rfl rfl))

/-- The last event says that the grammar is valid exactly if it is. -/
theorem message_last_validate_iff (g : Grammar ο) (allowUnreachable : Bool) :
    (g.validate allowUnreachable).events.getLast?.map Event.message = some "grammar is valid" ↔
      (g.validate allowUnreachable).value = .ok () := by
  obtain ⟨stages, hfaithful, hvalidate⟩ := g.exists_faithful_validate allowUnreachable
  rw [hvalidate, Check.value_followedBy_passing rfl]
  cases hvalue : stages.value with
  | error fault =>
      obtain ⟨last, hlast, tells⟩ := hfaithful.tells fault hvalue
      rw [Check.followedBy_of_error hvalue, hlast]
      simpa using tells.message_ne
  | ok passed => simp [Check.events_followedBy_of_ok hvalue, Event.message]

/-- When unreachable symbols are warned of. -/
structure Warned (g : Grammar ο) (allowUnreachable : Bool) : Prop where
  allowed : allowUnreachable = true
  checkBogusTokens : g.checkBogusTokens.value = .ok ()
  checkWellFounded : g.checkWellFounded.value = .ok ()
  exists_unreachable : ∃ s ∈ g.symbols, ¬ ∃ start ∈ g.starts, Occurs g.productions start s

/-- Some symbol occurs in no form derived from a start symbol just when the check has one to
name. -/
theorem exists_unreachable_iff :
    (∃ s ∈ g.symbols, ¬ ∃ start ∈ g.starts, Occurs g.productions start s) ↔ g.unreachable ≠ ∅ := by
  have hpass : Check.blame .unreachable g.unreachable = .ok () ↔ g.unreachable = ∅ :=
    Check.blame_eq_ok_iff
  rw [Ne, ← hpass, (Check.blame_verdict .unreachable g.mem_unreachable_iff_not_occurs).1]
  simp only [not_forall, Classical.not_not]

theorem warnings_warnOfUnreachable (h : g.unreachable ≠ ∅) :
    g.warnOfUnreachable.warnings = [.unreachableIgnored g.unreachable] := by
  rw [warnOfUnreachable_of_ne_empty h]
  rfl

/-- The warning stands with the check of reachability, and is logged if the checks before
that pass. -/
theorem warnings_validate (g : Grammar ο) (allowUnreachable : Bool) :
    ∃ before : Check, before.warnings = [] ∧
      (before.value = .ok () ↔
        g.checkBogusTokens.value = .ok () ∧ g.checkWellFounded.value = .ok ()) ∧
      (g.validate allowUnreachable).warnings = (before.followedBy
        (if allowUnreachable then g.warnOfUnreachable else g.checkReachability)).warnings := by
  have hfounded : g.checkWellFounded.warnings = [] := by
    simp only [Check.warnings, checkWellFounded]
    split <;> rfl
  refine ⟨Check.followedBy ⟨.ok (), [.validating g.symbols.size g.ruleCount g.starts.length]⟩
    g.checkBogusTokens |>.followedBy g.checkWellFounded, ?_, ?_, ?_⟩
  · rw [Check.warnings_followedBy_of_eq_nil hfounded, Check.warnings_followedBy_of_eq_nil rfl]
    rfl
  · simp only [Check.value_followedBy_eq_ok_iff, true_and]
  · rw [validate, Check.warnings_followedBy_of_eq_nil rfl, Check.warnings_followedBy_of_eq_nil rfl,
      Check.warnings_followedBy_of_eq_nil rfl]

/-- The one warning that a validation may log. -/
theorem warned_or_not (g : Grammar ο) (allowUnreachable : Bool) :
    g.Warned allowUnreachable ∧
        (g.validate allowUnreachable).warnings = [.unreachableIgnored g.unreachable] ∨
      ¬ g.Warned allowUnreachable ∧ (g.validate allowUnreachable).warnings = [] := by
  obtain ⟨before, hsilent, hpass, hwarnings⟩ := g.warnings_validate allowUnreachable
  rw [hwarnings]
  cases hvalue : before.value with
  | error fault =>
      refine .inr ⟨fun h => ?_, by rw [Check.warnings_followedBy_of_error hvalue, hsilent]⟩
      rw [hpass.mpr ⟨h.checkBogusTokens, h.checkWellFounded⟩] at hvalue
      contradiction
  | ok passed =>
      obtain ⟨hbogus, hfounded⟩ := hpass.mp hvalue
      rw [Check.warnings_followedBy_of_ok hvalue, hsilent, List.nil_append]
      cases allowUnreachable with
      | false => exact .inr ⟨fun h => Bool.noConfusion h.allowed, rfl⟩
      | true =>
          by_cases hempty : g.unreachable = ∅
          · refine .inr ⟨fun h => exists_unreachable_iff.mp h.exists_unreachable hempty, ?_⟩
            rw [if_pos rfl, warnOfUnreachable_of_empty hempty]
            rfl
          · exact .inl ⟨⟨rfl, hbogus, hfounded, exists_unreachable_iff.mpr hempty⟩,
              warnings_warnOfUnreachable hempty⟩

/-- **The events of a validation tell what it finds.**  The last one says that the grammar is
valid exactly if it is, and otherwise is that of the failing stage and counts what is wrong.
No event before the last raises an alarm, but for unreachable symbols right before the
warning that they are ignored.  The warning is logged at most once: where unreachable symbols
are allowed and there are some, after the checks before that have passed.  It gives in
increasing order the names that the check of reachability finds. -/
theorem events_validate (g : Grammar ο) (allowUnreachable : Bool) :
    let outcome := g.validate allowUnreachable
    (outcome.events.getLast?.map Event.message = some "grammar is valid" ↔
        outcome.value = .ok ()) ∧
      (∀ fault, outcome.value = .error fault →
        ∃ last, outcome.events.getLast? = some last ∧ last.TellsOf fault) ∧
      outcome.events.IsChain Event.MayPrecede ∧
      outcome.warnings.length ≤ 1 ∧
      (outcome.warnings ≠ [] ↔ g.Warned allowUnreachable) ∧
      ∀ warning ∈ outcome.warnings, warning.severity = .warning ∧
        ∃ orphans, g.checkReachability.value = .error (.unreachable orphans) ∧
          orphans.toList.Pairwise (· < ·) ∧
          warning.fields = [("symbols", .text (", ".intercalate orphans.toList))] := by
  intro outcome
  have hfaithful := g.faithful_validate allowUnreachable
  refine ⟨g.message_last_validate_iff allowUnreachable, hfaithful.tells, hfaithful.chain, ?_⟩
  rcases g.warned_or_not allowUnreachable with ⟨hwarned, heq⟩ | ⟨hnot, heq⟩
  · simp only [outcome, heq, List.mem_singleton, forall_eq]
    have hfails : g.checkReachability.value = .error (.unreachable g.unreachable) :=
      checkReachability_eq_error_iff.mpr
        ⟨exists_unreachable_iff.mp hwarned.exists_unreachable, rfl⟩
    exact ⟨Nat.le_refl 1, iff_of_true (List.cons_ne_nil _ _) hwarned, rfl,
      g.unreachable, hfails, g.unreachable.sorted_toList, rfl⟩
  · simp only [outcome, heq]
    exact ⟨Nat.zero_le 1, iff_of_false (fun h => h rfl) hnot, by simp⟩

/-- The relaxed validation of `deadLoop` warns of three symbols and then finds two of them on a
loop; the first rule alone is valid. -/
theorem events_validate_deadLoop :
    let outcome := (replay deadLoop).validate true
    let loop : SymbolSet := .ofList ["Loop", "Dead"]
    outcome.value = .error (.renamingLoop loop) ∧
      outcome.events.getLast? = some (.renameLoops 3 2) ∧
      (Event.renameLoops 3 2).TellsOf (.renamingLoop loop) ∧
      (replay deadLoop).Warned true ∧
      outcome.warnings.map Event.fields = [[("symbols", .text "Dead, Loop, z")]] ∧
      ((replay (deadLoop.take 2)).validate false).events.getLast?.map Event.message =
        some "grammar is valid" := by
  intro outcome loop
  obtain ⟨-, tells, -, -, warned_iff, -⟩ := events_validate (replay deadLoop) true
  have hvalue : outcome.value = .error (.renamingLoop loop) := by decide +kernel
  have hlast : outcome.events.getLast? = some (.renameLoops 3 2) := by decide +kernel
  have hfields : outcome.warnings.map Event.fields = [[("symbols", .text "Dead, Loop, z")]] := by
    decide +kernel
  obtain ⟨last, heq, htells⟩ := tells _ hvalue
  obtain rfl : last = .renameLoops 3 2 := Option.some.inj (heq.symm.trans hlast)
  have hwarned : outcome.warnings ≠ [] := by
    intro hnil
    rw [hnil] at hfields
    contradiction
  exact ⟨hvalue, hlast, htells, warned_iff.mp hwarned, hfields,
    (events_validate (replay (deadLoop.take 2)) false).1.mpr (by decide +kernel)⟩

end Grammar

end LRGrammar
