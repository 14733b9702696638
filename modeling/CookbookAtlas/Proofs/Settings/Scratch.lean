import CookbookAtlas.Proofs.Files.Places
import CookbookAtlas.Settings.Basic

/-! The scratch directories of accepted settings. Each of them is a child of the directory it is
made in, and removing it leaves everything else alone, with one exception: the name `.` is
accepted too, and it denotes the directory itself. -/
namespace CookbookAtlas.Settings

open CookbookAtlas.Path

theorem plain_of_check {s : Settings} (h : s.check = .ok ()) :
    isPlainName s.exportDir = true ∧ isPlainName s.vendorDir = true := by
  unfold check at h
  by_cases htimeout : s.timeoutSecs = 0
  · simp [htimeout] at h
  · by_cases hexport : isPlainName s.exportDir = true
    · by_cases hvendor : isPlainName s.vendorDir = true
      · exact ⟨hexport, hvendor⟩
      · simp [htimeout, hexport, hvendor] at h
    · simp [htimeout, hexport] at h

theorem isName_of_plain {value : String} (h : isPlainName value = true) (hdot : value ≠ ".") :
    IsName value := by
  simp only [isPlainName, Bool.and_eq_true, Bool.not_eq_true', bne_iff_ne, ne_eq] at h
  obtain ⟨⟨⟨hempty, hslash⟩, -⟩, hparent⟩ := h
  exact ⟨by simpa using hempty, hdot, hparent, by simpa using hslash⟩

/-- Removing a child of an absolute path without `..` changes nothing but what is in the child. -/
theorem removal_stays_inside {b : Path} (habs : b.isAbsolute = true) (hup : .parent ∉ b.components)
    {name : String} (hname : IsName name) (w : World) :
    Act.Ends (World.removeDirectory (b.child name)) w fun _ w' =>
      w' = { w with files := w'.files } ∧
      ∀ other, ¬ b.names ++ [name] <+: other → w'.files.get? other = w.files.get? other := by
  have hchild := components_child b hname
  have hup' : .parent ∉ (b.child name).components := by simpa [hchild] using hup
  have hnames := names_child b hname
  have hspot : w.spot (b.child name) = b.names ++ [name] := by
    simp [World.spot, World.base, isAbsolute_child b hname, habs, hnames]
  refine (World.removeDirectory_ends w (b.child name)).weaken ?_
  rintro - w' hswept
  by_cases hdir : ∃ place, w.DirectoryAt (b.child name) place
  · obtain ⟨place, hplace⟩ := hdir
    have hemptied := hswept.emptied place hplace
    have hwhere : place = b.names ++ [name] := by
      have hiff := World.place_iff (text_child_ne b hname) hup' (by simp [hnames]) (w := w) (q := place)
      exact (hiff.1 hplace.1).1.trans hspot
    exact ⟨hemptied.rest, fun other hother => hemptied.outside other (hwhere ▸ hother)⟩
  · rw [hswept.unchanged (not_exists.1 hdir)]
    exact ⟨rfl, fun _ _ => rfl⟩

/-- In an absolute directory written without `..`, an accepted scratch name other than `.` denotes
a child, and removing it changes nothing outside the child. The name `.` denotes the directory
itself. -/
theorem scratch_is_child_unless_dot {s : Settings} (hs : s.check = .ok ()) {b : Path}
    (habs : b.isAbsolute = true) (hup : .parent ∉ b.components) {name : String}
    (hname : name = s.exportDir ∨ name = s.vendorDir) : (name ≠ "." →
      (b.child name).normalize.components = b.normalize.components ++ [.name name] ∧
      b.normalize.components = b.components ∧
      ∀ w, Act.Ends (World.removeDirectory (b.child name)) w fun _ w' =>
        w' = { w with files := w'.files } ∧
        ∀ other, ¬ b.names ++ [name] <+: other → w'.files.get? other = w.files.get? other) ∧
    (name = "." → (b.child name).normalize = b.normalize) := by
  have hplain : isPlainName name = true := by
    rcases hname with rfl | rfl
    · exact (plain_of_check hs).1
    · exact (plain_of_check hs).2
  have hself := components_normalize habs hup
  constructor
  · intro hdot
    have hfile := isName_of_plain hplain hdot
    have hchild := components_child b hfile
    have habs' : (b.child name).isAbsolute = true := by rw [isAbsolute_child b hfile, habs]
    have hup' : .parent ∉ (b.child name).components := by simpa [hchild] using hup
    refine ⟨?_, hself, removal_stays_inside habs hup hfile⟩
    rw [components_normalize habs' hup', hself, hchild]
  · rintro rfl
    have hne : b.chars ≠ [] := by
      intro hnil
      simp [isAbsolute, hnil] at habs
    rw [Path.normalize, components_child_dot hne, Path.normalize]

/-- Settings by which vendored cookbooks are put into the cookbook itself. -/
def dotted : Settings := { standard with vendorDir := "." }

theorem standard_scratch_children :
    standard.check = .ok () ∧ ((⟨"/web"⟩ : Path).child standard.vendorDir).normalize.components =
      [.root, .name "web", .name "berks-cookbooks"] := by
  have hweb : (⟨"/web"⟩ : Path).normalize.components = [.root, .name "web"] := by decide +kernel
  have hchild := (scratch_is_child_unless_dot (s := standard) (b := ⟨"/web"⟩) (by decide)
    (by decide) (by decide +kernel) (.inr rfl)).1 (by decide)
  exact ⟨by decide, by rw [hchild.1, hweb]; rfl⟩

/-- The name `.` is accepted; it leads to the directory itself, of which removal leaves nothing. -/
theorem dotted_empties_base :
    dotted.check = .ok () ∧ ((⟨"/web"⟩ : Path).child dotted.vendorDir).normalize = ⟨"/web"⟩ ∧
    let w :
    World := ⟨⟨[(["web"], .directory), (["web", "metadata.rb"], .file [] false)]⟩, [], [], [], []⟩
    let after := ((World.removeDirectory ((⟨"/web"⟩ : Path).child dotted.vendorDir)).run.run w).2
    w.files.get? ["web", "metadata.rb"] = some (.file [] false) ∧
      after.files.get? ["web", "metadata.rb"] = none := by
  decide +kernel

end CookbookAtlas.Settings
