import LanguageClient.Script
/-
  LanguageClient.Proofs.Script — what scripts keep.

  Where every way to perform a step leads from a world to one that it is related to, so do
  the steps of a handler, however deep handlers nest, and so does a whole script. The
  relation is to be reflexive and transitive and has nothing to say of records.
-/

namespace LanguageClient.Script

variable {κ ρ ω o : Type} {R : ω → ω → Prop}

def Keeps (R : ω → ω → Prop) (run : κ → StateM ω ρ) : Prop := ∀ s w, R w (run s w).2

theorem act_keeps (hrefl : ∀ w, R w w) (htrans : ∀ {a b c}, R a b → R b c → R a c) {run : Option (κ → StateM ω ρ)}
    (hrun : ∀ f ∈ run, Keeps R f) {cut : ω → ω} (hcut : ∀ w, R w (cut w)) {did : κ → ρ → ω → ω}
    (hdid : ∀ s a w, R w (did s a w)) (steps : List κ) (w : ω) :
    R w (act run cut did steps w).2 := by
  cases run with
  | none =>
    rw [act]
    split
    · exact hrefl w
    · exact hcut w
  | some f =>
    induction steps generalizing w with
    | nil => exact hrefl w
    | cons s steps ih => exact htrans (htrans (hrun f rfl s w) (hdid s _ _)) (ih _)

theorem play_keeps (htrans : ∀ {a b c}, R a b → R b c → R a c) {perform : κ → StateM ω ρ} (hperform : Keeps R perform)
    {fresh : ω → ω} (hfresh : ∀ w, R w (fresh w)) (observe : ρ → ω → o) (steps : List κ) (w : ω) :
    ∀ x ∈ (play perform fresh observe steps w).1, ∃ a w', R w w' ∧ x = observe a w' := by
  induction steps generalizing w with
  | nil => exact fun x hx => by cases hx
  | cons s steps ih =>
    have hfirst := htrans (hfresh w) (hperform s (fresh w))
    intro x hx
    rcases List.mem_cons.1 hx with rfl | hx
    · exact ⟨_, _, hfirst, rfl⟩
    · obtain ⟨a, w', hw', rfl⟩ := ih _ x hx
      exact ⟨a, w', htrans hfirst hw', rfl⟩

/-- What performing keeps, given handlers that keep it, is kept however deep handlers nest. -/
theorem nested_keeps {perform : Option (κ → StateM ω ρ) → κ → StateM ω ρ}
    (hperform : ∀ run, (∀ f ∈ run, Keeps R f) → Keeps R (perform run)) (limit : Nat) :
    Keeps R (nested perform limit) := by
  induction limit with
  | zero => exact hperform none fun f hf => by cases hf
  | succ n ih => exact hperform _ fun f hf => by cases hf; exact ih

end LanguageClient.Script
