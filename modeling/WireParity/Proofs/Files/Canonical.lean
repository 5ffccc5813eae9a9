import WireParity.Files.Tree
import Mathlib.Tactic.SplitIfs

/-!
# The names behind a path

A path that can be read leads to a file of the tree, and the names of that file say which one: its
content is what the tree has under them, however the path is spelled.
-/

namespace WireParity

/-- What a path led to is in the tree: a file is there with its content. -/
def FileNode.Sits (tree : FileTree) : FileNode → Prop
  | .file names content => tree.contentAt? names = some content
  | .directory _ => True

namespace FileTree

variable {tree : FileTree} {path : String} {content : Bytes} {names : List String}

/-- One name leads to what is in the tree. -/
theorem sits_of_enter {place : Place} {name : String} {node : FileNode}
    (henter : tree.enter place name = .ok node) : node.Sits tree := by
  cases place with
  | outside =>
    simp only [enter] at henter
    split_ifs at henter <;> cases henter <;> trivial
  | inside above =>
    cases hfound : tree.contentAt? (above ++ [name]) with
    | none =>
      simp only [enter, hfound] at henter
      split_ifs at henter <;> cases henter <;> trivial
    | some content =>
      simp only [enter, hfound] at henter
      split_ifs at henter <;> cases henter
      · trivial
      · trivial
      · trivial
      · exact hfound

/-- Names one after another lead to what is in the tree. -/
theorem sits_of_follow {steps : List String} {start node : FileNode} (hstart : start.Sits tree)
    (hfollow : tree.follow start steps = .ok node) : node.Sits tree := by
  induction steps generalizing start with
  | nil =>
    rw [follow] at hfollow
    cases hfollow
    exact hstart
  | cons name steps ih =>
    cases start with
    | file _ _ =>
      rw [follow] at hfollow
      cases hfollow
    | directory place =>
      rw [follow] at hfollow
      cases henter : tree.enter place name with
      | error e => rw [henter] at hfollow; cases hfollow
      | ok next =>
        rw [henter] at hfollow
        exact ih (sits_of_enter henter) hfollow

/-- A path leads to what is in the tree. -/
theorem sits_of_locate {node : FileNode} (hlocate : tree.locate path = .ok node) :
    node.Sits tree := by
  rw [locate] at hlocate
  split_ifs at hlocate
  have horigin : (origin path).Sits tree := trivial
  exact sits_of_follow horigin hlocate

/-- A path that can be read leads to a file, whose names it has. -/
theorem exists_canonical?_of_read (hread : tree.read path = .ok content) :
    ∃ names, tree.canonical? path = some names ∧ tree.contentAt? names = some content := by
  rw [read] at hread
  rw [canonical?]
  cases hlocate : tree.locate path with
  | error e => rw [hlocate] at hread; cases hread
  | ok node =>
    rw [hlocate] at hread
    cases node with
    | directory _ => cases hread
    | file names found =>
      cases hread
      exact ⟨names, rfl, sits_of_locate hlocate⟩

/-- What has a content is one of the files. -/
theorem mem_names_of_contentAt? (hcontent : tree.contentAt? names = some content) :
    names ∈ tree.files.map Prod.fst := by
  obtain ⟨entry, hentry, _⟩ := Option.map_eq_some_iff.mp hcontent
  have hname := List.find?_some hentry
  exact List.mem_map.mpr ⟨entry, List.mem_of_find?_eq_some hentry, beq_iff_eq.mp hname⟩

end FileTree

end WireParity
