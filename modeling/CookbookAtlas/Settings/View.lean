import CookbookAtlas.Recipe.View
import CookbookAtlas.Settings.Basic

/-! Settings as a data value, in the sections of a settings file. -/
namespace CookbookAtlas.Settings

def datum (s : Settings) : Datum :=
  .object [
    ("tools", .object [("chef", .string s.chef), ("berks", .string s.berks),
    ("timeout_secs", .ofNat s.timeoutSecs)]),
    ("lockfile", .object [("search_depth", .ofNat s.searchDepth)]),
    ("workspace", .object [("export_dir", .string s.exportDir), ("vendor_dir", .string s.vendorDir)]),
    ("analysis", .object [("value_display_limit", .ofNat s.displayLimit),
    ("max_tree_depth", .ofNat s.maxTreeDepth)])]

end CookbookAtlas.Settings
