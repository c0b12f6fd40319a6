import LanguageClient.Pending.Script
import LanguageClient.Proofs.Script
import LanguageClient.Proofs.Pending.Settlement
/-
  LanguageClient.Proofs.Pending.Script — scripts go through moments of the table.

  The askers of a script use the table by its operations only, so whatever a script does is
  a sequence of steps, and between two steps of the script no operation is under way.
-/

namespace LanguageClient.Pending.Script

theorem seat_lawful : seat.Lawful := ⟨fun _ _ => rfl, fun _ _ => rfl⟩

/-- Where the table of `w` is at some moment, it can come to be that of `w'`. -/
def Follows (w w' : World) : Prop :=
  ∀ m : (uses Asker).Moment, m.state = w.pending → Operations.Leads m m.stack w'.pending

theorem Follows.of_eq {w w' : World} (h : w'.pending = w.pending) : Follows w w' :=
  fun m hm => ⟨m, .refl, rfl, hm.trans h.symm⟩

theorem Follows.refl (w : World) : Follows w w := .of_eq rfl

theorem Follows.trans {w₁ w₂ w₃ : World} (h : Follows w₁ w₂) (h' : Follows w₂ w₃) : Follows w₁ w₃ :=
  fun m hm => (h m hm).trans fun trace => h' ⟨w₂.pending, m.stack, trace⟩ rfl

theorem Follows.record (e : Event) (w : World) : Follows w (w.record e) := .of_eq rfl

theorem tell_wellBehaved {run : Option (Step → StateM World Answer)} (hrun : ∀ f ∈ run, Script.Keeps Follows f) :
    (uses Asker).WellBehaved seat (tell run) := by
  intro c w m hm
  let asker := c.1.asker
  have hact := Script.act_keeps Follows.refl Follows.trans hrun (.record (.cut asker.method))
    (fun s a => .record (.did asker.method s a)) (asker.stepsFor c.2)
  exact hact (w.record (.told asker.method c.2)) m hm

/-- A step of a script is a use of the table, or leaves it alone. -/
theorem perform_keeps (run : Option (Step → StateM World Answer)) (hrun : ∀ f ∈ run, Script.Keeps Follows f) :
    Script.Keeps Follows (perform run) := by
  have huse := fun u {w : World} {m : (uses Asker).Moment} (hm : m.state = w.pending) =>
    Operations.enter_run seat_lawful (tell_wellBehaved hrun) u hm
  intro s w m hm
  cases s with
  | issue method now params onResult onError => exact huse (.issue method params ⟨method, onResult, onError⟩ now) hm
  | complete r => exact huse (.complete r) hm
  | expire now => exact huse (.expire now) hm
  | reject id e => exact huse (.reject id e) hm
  | rejectAll e => exact huse (.rejectAll e) hm
  | isPending id => exact Follows.refl w m hm

/-- What is observed after each step of a script is the table at a moment of rest. -/
theorem play_at_rest (limit : Nat) (timeout : Option Int) (steps : List Step) : ∀ x ∈ play limit timeout steps,
    ∃ m : (uses Asker).Moment, (uses Asker).Reachable { timeout := timeout.getD 30000 } m ∧ m.stack = [] ∧
      x.pending = m.state.count ∧ x.lastId = m.state.lastId ∧ x.nextDeadline = m.state.nextDeadline := by
  intro x hx
  have hfresh : ∀ w : World, Follows w { w with events := [], log := [] } := fun _ => .of_eq rfl
  obtain ⟨a, w', hfollows, rfl⟩ :=
    Script.play_keeps (R := Follows) Follows.trans (Script.nested_keeps perform_keeps limit) hfresh _ _ _ x hx
  obtain ⟨m, hsteps, hstack, hstate⟩ := hfollows ⟨{ timeout := timeout.getD 30000 }, [], []⟩ (by cases timeout <;> rfl)
  refine ⟨m, Operations.Reachable.init.steps hsteps, hstack, ?_⟩
  rw [hstate]
  exact ⟨rfl, rfl, rfl⟩

end LanguageClient.Pending.Script
