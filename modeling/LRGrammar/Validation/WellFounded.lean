import LRGrammar.Grammar
import LRGrammar.Validation.Check

/-!
# LRGrammar.Validation.WellFounded

Every non-terminal must derive some finite sequence of terminals.  Terminals are
well-founded, and so is the left-hand side of a rule whose whole body is.  The
rules that are not settled are swept again and again, until none is left or a
sweep settles none.

* `sweep_sublist` — the rules that a sweep leaves blocked are among those it was
  given, in the same order.
-/

namespace LRGrammar

/-- Go through the rules once.  A symbol that is settled on the way counts for the
rules after it; the rules that stay blocked are kept in order. -/
def sweep (settled : SymbolSet) : List Production → SymbolSet × List Production
  | [] => (settled, [])
  | p :: rest =>
      if settled.contains p.lhs then sweep settled rest
      else if p.rhs.all settled.contains then sweep (settled.insert p.lhs) rest
      else
        let behind := sweep settled rest
        (behind.1, p :: behind.2)

theorem sweep_sublist (settled : SymbolSet) (pending : List Production) :
    (sweep settled pending).2.Sublist pending := by
  fun_induction sweep settled pending with
  | case1 => simp
  | case2 _ _ _ _ ih => exact ih.cons _
  | case3 _ _ _ _ _ ih => exact ih.cons _
  | case4 _ _ _ _ _ _ ih => exact ih.cons_cons _

/-- How settling the symbols ended: the number of sweeps, and the left-hand sides
that no sweep could settle. -/
structure Settling where
  sweeps : Nat
  stuck : SymbolSet
deriving DecidableEq

/-- Sweep the pending rules until none is left, or a sweep makes no difference. -/
def settle (settled : SymbolSet) (pending : List Production) : Settling :=
  if pending.isEmpty then ⟨0, ∅⟩
  else
    let swept := sweep settled pending
    if swept.2.length < pending.length then
      let later := settle swept.1 swept.2
      { later with sweeps := later.sweeps + 1 }
    else ⟨1, .ofList (swept.2.map (·.lhs))⟩
termination_by pending.length

namespace Grammar

variable {ο : Type}

/-- Settle the symbols of the grammar, starting from its terminals. -/
def settling (g : Grammar ο) : Settling := settle g.apparentTerminals g.productions

/-- Every non-terminal derives a finite sequence of terminals. -/
def checkWellFounded (g : Grammar ο) : Check :=
  let outcome := g.settling
  { value := Check.blame .illFounded outcome.stuck
    events :=
      if outcome.stuck.isEmpty then [.wellFounded outcome.sweeps]
      else [.illFounded outcome.sweeps outcome.stuck.size] }

end Grammar

end LRGrammar
