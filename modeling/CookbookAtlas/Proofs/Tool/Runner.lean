import CookbookAtlas.Proofs.Files.Copy
import CookbookAtlas.Tool.Programs

/-! What a runner leaves alone. A call may do anything to the file tree that its runner likes, so
what holds of a run of the program rests on what the calls it makes are known to spare. -/
namespace CookbookAtlas

namespace World

/-- From `w` to `w'` nothing has changed at a place or below it, and nothing at all apart from the
file tree and the calls made. -/
structure Keeps (w : World) (place : Files.Place) (w' : World) : Prop where
  kept : ∀ other, place <+: other → w'.files.get? other = w.files.get? other
  proper : w.files.Proper → w'.files.Proper
  rest : w' = { w with files := w'.files, calls := w'.calls }

namespace Keeps

variable {w w' w'' : World} {place : Files.Place}

theorem refl (w : World) (place : Files.Place) : w.Keeps place w := ⟨fun _ _ => rfl, id, rfl⟩

theorem trans (h : w.Keeps place w') (h' : w'.Keeps place w'') : w.Keeps place w'' where
  kept other hother := (h'.kept other hother).trans (h.kept other hother)
  proper hw := h'.proper (h.proper hw)
  rest := by rw [h'.rest, h.rest]

theorem spot (h : w.Keeps place w') (p : Path) : w'.spot p = w.spot p := by
  rw [h.rest]
  rfl

end Keeps
end World

namespace Tool
namespace Runner

/-- Carrying out a call changes nothing of the world but the file tree. -/
def Outside (r : Runner) : Prop :=
  ∀ c w, ((r.run c).run.run w).2 = { w with files := ((r.run c).run.run w).2.files }

/-- Carrying out a call changes nothing at a place or below it. -/
def Spares (r : Runner) (c : Command) (place : Files.Place) : Prop :=
  ∀ w other, place <+: other → ((r.run c).run.run w).2.files.get? other = w.files.get? other

def Orderly (r : Runner) (c : Command) : Prop :=
  ∀ w, w.files.Proper → ((r.run c).run.run w).2.files.Proper

theorem require_run (r : Runner) (tool : String) (w : World) :
    (r.require tool).run.run w =
      (if r.available w tool then .ok () else .error (.ofFailure (.toolNotFound tool)), w) := by
  change ((if r.available w tool then pure () else throw _ : Act Unit).run.run w) = _
  split <;> rfl

theorem call_run (r : Runner) (c : Command) (w : World) :
    (r.call c).run.run w = (r.run c).run.run { w with calls := w.calls ++ [c] } := rfl

theorem call_noted {r : Runner} (hr : r.Outside) (c : Command) (w : World) :
    Act.Ends (r.call c) w fun _ w' => w'.calls = w.calls ++ [c] ∧ w'.installed = w.installed := by
  constructor
  rw [call_run, hr]
  exact ⟨rfl, rfl⟩

theorem call_spares {r : Runner} {c : Command} {place : Files.Place} (hspares : r.Spares c place)
    (w : World) : Act.Ends (r.call c) w fun _ w' =>
      ∀ other, place <+: other → w'.files.get? other = w.files.get? other :=
  ⟨hspares { w with calls := w.calls ++ [c] }⟩

theorem call_keeps {r : Runner} (hr : r.Outside) {c : Command} {place : Files.Place}
    (hspares : r.Spares c place)
    (horderly : r.Orderly c) (w : World) : Act.Ends (r.call c) w fun _ w' => w.Keeps place w' := by
  have hkept := (call_spares hspares w).after
  constructor
  exact ⟨hkept, horderly { w with calls := w.calls ++ [c] }, by rw [call_run, hr]⟩

end Runner

theorem Programs.runner_outside : Programs.runner.Outside := by
  intro c w
  have hends : Act.Ends (Programs.run c) w fun _ w' => w' = { w with files := w'.files } := by
    apply Act.Ends.get
    split
    · exact .throw rfl
    · refine .bind ⟨?_⟩
      change Act.Ends _ _ _
      split
      · exact .pure rfl
      · exact .throw rfl
  exact hends.after

end Tool
end CookbookAtlas
