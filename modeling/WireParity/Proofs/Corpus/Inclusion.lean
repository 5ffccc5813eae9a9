import WireParity.Proofs.Corpus.Loading
import WireParity.Proofs.Files.Canonical

/-!
# Manifests that include one another

Manifests are files, and what they include may lead anywhere, back to themselves too. `Collects` is
the collecting of manifests without any bound on how deep they are included. Every manifest that is
read uses up one file of the tree, so collecting comes to an end however the files refer to one
another, and the bound that is there in fact is never what ends it.

What is collected is told by the files alone: `Lists` puts each manifest before those that it
includes, and `Leads` follows the includes by their positions. Collecting goes through exactly if no
two ways lead to one file and every way leads to a manifest.
-/

namespace WireParity

namespace Samples

/-- A manifest of one vector that includes others. -/
def includingText (name included blob : String) : String :=
  "\x7b\"version\":1,\"include\":[" ++ included ++ "],\"vectors\":[\x7b\"name\":\"" ++ name ++
  "\",\"type\":\"u8\",\"binary\":\"" ++ blob ++ "\",\"value\":1\x7d]\x7d"

/-- Four manifests, one of them included by a path that goes up and down again. -/
def includingTree : FileTree :=
  .ofFiles [("corpus.json", Utf8.encode (includingText "top" "\"parts/a.json\",\"b.json\"" "blob")),
    ("parts/a.json", Utf8.encode (includingText "a" "\"../parts/./c.json\"" "../blob")),
    ("parts/c.json", Utf8.encode (includingText "c" "" "../blob")),
    ("b.json", Utf8.encode (includingText "b" "" "blob")), ("blob", [1])]

/-- A manifest that includes itself by another path. -/
def circularTree : FileTree :=
  .ofFiles [("corpus.json", Utf8.encode (includingText "top" "\"./corpus.json\"" "blob")),
    ("blob", [1])]

end Samples

/-- The paths that a manifest includes, in the order listed. -/
def ManifestFile.included (file : ManifestFile) : List String :=
  file.manifest.includes.map (Files.join (Collection.directoryOf file.path))

namespace Collection

variable {tree : FileTree} {path target : String} {paths rest : List String}
variable {manifest : Manifest} {files : List ManifestFile} {c c' : Collection}
variable {outcome : Collection × Option RunError} {route : List Nat}

/-- What the manifests at paths come to, one after another, each with what it includes: what is
collected afterwards, and the error that ended it. -/
inductive Collects (tree : FileTree) :
    List String → Collection → Collection × Option RunError → Prop
  /-- There are no more paths. -/
  | done (c : Collection) : Collects tree [] c (c, none)
  /-- The first path leads to a file that was reached before. -/
  | again {path : String} {rest : List String} {c : Collection} :
      c.reach? tree path = none →
      Collects tree (path :: rest) c (c, some (.load path .includedTwice))
  /-- The first path leads to no manifest. -/
  | unread {path : String} {rest : List String} {c c' : Collection} {fault : LoadFault} :
      c.reach? tree path = some c' → readManifest tree path = .error fault →
      Collects tree (path :: rest) c (c', some (.load path fault))
  /-- What the first manifest includes ends it. -/
  | stopped {path : String} {rest : List String} {c c' c'' : Collection} {manifest : Manifest}
      {e : RunError} :
      c.reach? tree path = some c' → readManifest tree path = .ok manifest →
      Collects tree (ManifestFile.included ⟨path, manifest⟩)
        { c' with manifests := c'.manifests ++ [⟨path, manifest⟩] } (c'', some e) →
      Collects tree (path :: rest) c (c'', some e)
  /-- The first manifest is read with what it includes, and then come the others. -/
  | read {path : String} {rest : List String} {c c' c'' : Collection} {manifest : Manifest}
      {outcome : Collection × Option RunError} :
      c.reach? tree path = some c' → readManifest tree path = .ok manifest →
      Collects tree (ManifestFile.included ⟨path, manifest⟩)
        { c' with manifests := c'.manifests ++ [⟨path, manifest⟩] } (c'', none) →
      Collects tree rest c'' outcome → Collects tree (path :: rest) c outcome

/-- The manifests at paths in pre-order: each one, then those that it includes, then the others. -/
inductive Lists (tree : FileTree) : List String → List ManifestFile → Prop
  /-- No paths have no manifests. -/
  | done : Lists tree [] []
  /-- The first manifest comes before those that it includes, and these before the others. -/
  | read {path : String} {rest : List String} {manifest : Manifest}
      {below others : List ManifestFile} :
      readManifest tree path = .ok manifest →
      Lists tree (ManifestFile.included ⟨path, manifest⟩) below → Lists tree rest others →
      Lists tree (path :: rest) (⟨path, manifest⟩ :: below ++ others)

/-- Positions that lead from paths to a path: the first is one among the paths, and each other one
is among those that the manifest before it includes. -/
inductive Leads (tree : FileTree) : List String → List Nat → String → Prop
  /-- The first path leads to itself. -/
  | here (path : String) (rest : List String) : Leads tree (path :: rest) [0] path
  /-- It leads to where those lead that its manifest includes. -/
  | through {path target : String} {rest : List String} {manifest : Manifest} {route : List Nat} :
      readManifest tree path = .ok manifest →
      Leads tree (ManifestFile.included ⟨path, manifest⟩) route target →
      Leads tree (path :: rest) (0 :: route) target
  /-- The others lead on as well. -/
  | later {path target : String} {rest : List String} {position : Nat} {route : List Nat} :
      Leads tree rest (position :: route) target →
      Leads tree (path :: rest) ((position + 1) :: route) target

/-- Includes lead to nothing but manifests, and to no file in two ways. -/
structure ReachesOnce (tree : FileTree) (paths : List String) : Prop where
  readable : ∀ route path, Leads tree paths route path →
    ∃ manifest, readManifest tree path = .ok manifest
  once : ∀ route route' path path', Leads tree paths route path → Leads tree paths route' path' →
    tree.canonical? path = tree.canonical? path' → route = route'

/-- Includes lead to none of the files with given names. -/
def LeadsApart (tree : FileTree) (paths : List String) (reached : List (List String)) : Prop :=
  ∀ route path names, Leads tree paths route path → tree.canonical? path = some names →
    names ∉ reached

section Visits

/-- A manifest is read from a file of the tree. -/
theorem exists_canonical?_of_readManifest (hread : readManifest tree path = .ok manifest) :
    ∃ names, tree.canonical? path = some names ∧ names ∈ tree.files.map Prod.fst := by
  rw [readManifest, FileTree.readText] at hread
  cases hcontent : tree.read path with
  | error e => rw [hcontent] at hread; cases hread
  | ok content =>
    obtain ⟨names, hnames, hfound⟩ := FileTree.exists_canonical?_of_read hcontent
    exact ⟨names, hnames, FileTree.mem_names_of_contentAt? hfound⟩

/-- A file is refused exactly if it was reached before. -/
theorem reach?_eq_none_iff : c.reach? tree path = none ↔
    ∃ names, tree.canonical? path = some names ∧ names ∈ c.reached := by
  rw [reach?]
  cases tree.canonical? path with
  | none => simp
  | some names => by_cases hreached : names ∈ c.reached <;> simp [hreached]

/-- Reaching a file collects nothing, and forgets no file that was reached. -/
theorem reach?_eq_some (hreach : c.reach? tree path = some c') :
    c'.manifests = c.manifests ∧ c.reached ⊆ c'.reached := by
  rw [reach?] at hreach
  split at hreach
  · cases hreach
    exact ⟨rfl, List.Subset.refl _⟩
  · split at hreach
    · cases hreach
    · cases hreach
      exact ⟨rfl, List.subset_cons_self _ _⟩

/-- A manifest that is read is in a file of the tree that was not reached before, and now is. -/
theorem visits (hreach : c.reach? tree path = some c')
    (hread : readManifest tree path = .ok manifest) :
    ∃ names, tree.canonical? path = some names ∧ names ∈ tree.files.map Prod.fst ∧
      names ∉ c.reached ∧ c' = ⟨c.manifests, names :: c.reached⟩ := by
  obtain ⟨names, hnames, hfile⟩ := exists_canonical?_of_readManifest hread
  simp only [reach?, hnames] at hreach
  split at hreach
  · cases hreach
  · next hfresh =>
    cases hreach
    exact ⟨names, hnames, hfile, hfresh, rfl⟩

end Visits

section Ending

/-- How many files were not reached. -/
def unreached (tree : FileTree) (c : Collection) : Nat :=
  ((tree.files.map Prod.fst).toFinset \ c.reached.toFinset).card

/-- There are no more of them than files. -/
theorem unreached_le (tree : FileTree) (c : Collection) : unreached tree c ≤ tree.files.length := by
  calc
    unreached tree c ≤ (tree.files.map Prod.fst).toFinset.card :=
      Finset.card_le_card Finset.sdiff_subset
    _ ≤ (tree.files.map Prod.fst).length := List.toFinset_card_le _
    _ = tree.files.length := List.length_map _

/-- Where more files were reached, fewer were not. -/
theorem unreached_anti (hreached : c.reached ⊆ c'.reached) : unreached tree c' ≤ unreached tree c :=
  Finset.card_le_card (Finset.sdiff_subset_sdiff (Finset.Subset.refl _) fun _ hnames =>
    List.mem_toFinset.mpr (hreached (List.mem_toFinset.mp hnames)))

/-- Each manifest that is read leaves fewer files. -/
theorem unreached_lt (hreach : c.reach? tree path = some c')
    (hread : readManifest tree path = .ok manifest) : unreached tree c' < unreached tree c := by
  obtain ⟨names, _, hfile, hfresh, rfl⟩ := visits hreach hread
  refine Finset.card_lt_card (Finset.ssubset_iff_of_subset ?_ |>.mpr ⟨names, ?_, ?_⟩)
  · intro other hother
    rw [Finset.mem_sdiff, List.mem_toFinset, List.mem_toFinset] at hother ⊢
    exact ⟨hother.1, fun hreached => hother.2 (List.mem_cons_of_mem names hreached)⟩
  · rw [Finset.mem_sdiff, List.mem_toFinset, List.mem_toFinset]
    exact ⟨hfile, hfresh⟩
  · simp

/-- No file that was reached is forgotten. -/
theorem Collects.reached_subset (h : Collects tree paths c outcome) :
    c.reached ⊆ outcome.1.reached := by
  induction h with
  | done c => exact List.Subset.refl _
  | again _ => exact List.Subset.refl _
  | unread hreach _ => exact (reach?_eq_some hreach).2
  | stopped hreach _ _ ih => exact List.Subset.trans (reach?_eq_some hreach).2 ih
  | read hreach _ _ _ ihbelow ihrest =>
    exact List.Subset.trans (List.Subset.trans (reach?_eq_some hreach).2 ihbelow) ihrest

/-- One more level reads the manifest and leaves those that it includes to the levels below. -/
theorem addWithin_succ (depth : Nat) (hreach : c.reach? tree path = some c')
    (hread : readManifest tree path = .ok manifest) :
    addWithin tree (depth + 1) path c =
      addAll (addWithin tree depth) (ManifestFile.included ⟨path, manifest⟩)
        { c' with manifests := c'.manifests ++ [⟨path, manifest⟩] } := by
  simp only [addWithin, hreach, hread]
  rfl

/-- With more levels than there are files left, collecting is never cut short. -/
theorem collects_addAll {depth : Nat} (hdepth : unreached tree c < depth) :
    Collects tree paths c (addAll (addWithin tree depth) paths c) := by
  -- the levels bound how deep manifests are included, the list how many stand side by side
  induction depth generalizing paths c with
  | zero => exact absurd hdepth (Nat.not_lt_zero _)
  | succ depth ih =>
    induction paths generalizing c with
    | nil => exact .done c
    | cons path rest ihrest =>
      rw [addAll]
      cases hreach : c.reach? tree path with
      | none =>
        simp only [addWithin, hreach]
        exact .again hreach
      | some c' =>
        cases hread : readManifest tree path with
        | error fault =>
          simp only [addWithin, hreach, hread]
          exact .unread hreach hread
        | ok manifest =>
          have hless : unreached tree c' < unreached tree c := unreached_lt hreach hread
          have hbelow : Collects tree (ManifestFile.included ⟨path, manifest⟩)
              { c' with manifests := c'.manifests ++ [⟨path, manifest⟩] } _ :=
            ih (show unreached tree c' < depth by omega)
          rw [addWithin_succ depth hreach hread]
          generalize addAll _ _ _ = outcome at hbelow ⊢
          obtain ⟨c'', fault⟩ := outcome
          cases fault with
          | some e => exact .stopped hreach hread hbelow
          | none =>
            have hmore : unreached tree c'' ≤ unreached tree c' :=
              unreached_anti hbelow.reached_subset
            exact .read hreach hread hbelow (ihrest (by omega))

/-- What paths come to is what so many levels come to. -/
theorem Collects.eq_addAll (h : Collects tree paths c outcome) {depth : Nat}
    (hdepth : unreached tree c < depth) :
    addAll (addWithin tree depth) paths c = outcome := by
  induction h generalizing depth with
  | done c => rfl
  | again hreach =>
    obtain ⟨depth, rfl⟩ := Nat.exists_eq_add_one_of_ne_zero (Nat.ne_zero_of_lt hdepth)
    simp only [addAll, addWithin, hreach]
  | unread hreach hread =>
    obtain ⟨depth, rfl⟩ := Nat.exists_eq_add_one_of_ne_zero (Nat.ne_zero_of_lt hdepth)
    simp only [addAll, addWithin, hreach, hread]
  | @stopped _ _ c c' _ _ _ hreach hread _ ih =>
    obtain ⟨depth, rfl⟩ := Nat.exists_eq_add_one_of_ne_zero (Nat.ne_zero_of_lt hdepth)
    have hless : unreached tree c' < unreached tree c := unreached_lt hreach hread
    rw [addAll, addWithin_succ depth hreach hread, ih (show unreached tree c' < depth by omega)]
  | @read _ _ c c' c'' _ _ hreach hread hbelow _ ihbelow ihrest =>
    obtain ⟨depth, rfl⟩ := Nat.exists_eq_add_one_of_ne_zero (Nat.ne_zero_of_lt hdepth)
    have hless : unreached tree c' < unreached tree c := unreached_lt hreach hread
    have hmore : unreached tree c'' ≤ unreached tree c' := unreached_anti hbelow.reached_subset
    rw [addAll, addWithin_succ depth hreach hread,
      ihbelow (show unreached tree c' < depth by omega)]
    exact ihrest (by omega)

/-- One path is added by itself. -/
theorem addAll_singleton (add : String → Collection → Collection × Option RunError)
    (path : String) (c : Collection) : addAll add [path] c = add path c := by
  rw [addAll]
  generalize add path c = outcome
  obtain ⟨c', fault⟩ := outcome
  cases fault <;> rfl

/-- What a path comes to, with any number of levels that exceeds the files. -/
theorem collects_addWithin {depth : Nat} (hdepth : tree.files.length < depth) :
    Collects tree [path] .empty (addWithin tree depth path .empty) := by
  rw [← addAll_singleton (addWithin tree depth)]
  exact collects_addAll (lt_of_le_of_lt (unreached_le tree .empty) hdepth)

/-- A path comes to one outcome. -/
theorem Collects.eq_ofPath (h : Collects tree [path] .empty outcome) :
    outcome = ofPath tree path := by
  rw [ofPath, ← addAll_singleton (addWithin tree _)]
  exact (h.eq_addAll (Nat.lt_succ_of_le (unreached_le tree .empty))).symm

end Ending

section OnceEach

/-- The manifests were each read from a file that was reached, and no two from one file. -/
structure OncePerFile (tree : FileTree) (c : Collection) : Prop where
  held : ∀ file ∈ c.manifests, readManifest tree file.path = .ok file.manifest
  marked : ∀ file ∈ c.manifests, ∃ names ∈ c.reached, tree.canonical? file.path = some names
  distinct : (c.manifests.map fun file => tree.canonical? file.path).Nodup

/-- Reaching one more file keeps them so. -/
theorem OncePerFile.reach (honce : OncePerFile tree c) (hreach : c.reach? tree path = some c') :
    OncePerFile tree c' := by
  obtain ⟨hmanifests, hreached⟩ := reach?_eq_some hreach
  refine ⟨hmanifests ▸ honce.held, fun file hfile => ?_, hmanifests ▸ honce.distinct⟩
  obtain ⟨names, hnames, hfile⟩ := honce.marked file (hmanifests ▸ hfile)
  exact ⟨names, hreached hnames, hfile⟩

/-- Reading the manifest in it does too: none was read from this file. -/
theorem OncePerFile.read (honce : OncePerFile tree c) (hreach : c.reach? tree path = some c')
    (hread : readManifest tree path = .ok manifest) :
    OncePerFile tree { c' with manifests := c'.manifests ++ [⟨path, manifest⟩] } := by
  have hkept := honce.reach hreach
  obtain ⟨names, hnames, _, hfresh, rfl⟩ := visits hreach hread
  refine ⟨?_, ?_, ?_⟩
  · exact List.forall_mem_append.mpr ⟨hkept.held, List.forall_mem_singleton.mpr hread⟩
  · exact List.forall_mem_append.mpr ⟨hkept.marked,
      List.forall_mem_singleton.mpr ⟨names, List.mem_cons_self, hnames⟩⟩
  · rw [List.map_append, List.map_singleton, ← List.concat_eq_append, List.nodup_concat]
    refine ⟨fun hold => ?_, hkept.distinct⟩
    obtain ⟨file, hfile, hsame⟩ := List.mem_map.mp hold
    obtain ⟨other, hother, hcanonical⟩ := honce.marked file hfile
    rw [hcanonical, hnames, Option.some.injEq] at hsame
    exact hfresh (hsame ▸ hother)

/-- Collecting reads no file twice, whether it goes through or not. -/
theorem Collects.oncePerFile (h : Collects tree paths c outcome) (honce : OncePerFile tree c) :
    OncePerFile tree outcome.1 := by
  induction h with
  | done c => exact honce
  | again _ => exact honce
  | unread hreach _ => exact honce.reach hreach
  | stopped hreach hread _ ih => exact ih (honce.read hreach hread)
  | read hreach hread _ _ ihbelow ihrest => exact ihrest (ihbelow (honce.read hreach hread))

/-- Nothing is collected yet. -/
theorem oncePerFile_empty : OncePerFile tree .empty :=
  ⟨List.forall_mem_nil _, List.forall_mem_nil _, List.nodup_nil⟩

/-- There are no more manifests than files. -/
theorem OncePerFile.length_le (honce : OncePerFile tree c) :
    c.manifests.length ≤ tree.files.length := by
  have hfiles : (c.manifests.map fun file => tree.canonical? file.path) ⊆
      tree.files.map fun entry => some entry.1 := by
    intro names hnames
    obtain ⟨file, hfile, rfl⟩ := List.mem_map.mp hnames
    obtain ⟨names, hnames, hnamed⟩ := exists_canonical?_of_readManifest (honce.held file hfile)
    obtain ⟨entry, hentry, rfl⟩ := List.mem_map.mp hnamed
    exact List.mem_map.mpr ⟨entry, hentry, hnames.symm⟩
  simpa using (honce.distinct.subperm hfiles).length_le

end OnceEach

section Listing

variable {files' : List ManifestFile} {file : ManifestFile}

/-- Paths have one listing. -/
theorem Lists.unique (h : Lists tree paths files) (h' : Lists tree paths files') :
    files = files' := by
  induction h generalizing files' with
  | done => cases h'; rfl
  | read hread _ _ ihbelow ihrest =>
    cases h' with
    | read hread' hbelow' hrest' =>
      rw [hread, Except.ok.injEq] at hread'
      subst hread'
      rw [ihbelow hbelow', ihrest hrest']

/-- Collecting that goes through adds the listing, and reaches the files in it and no others. -/
theorem Collects.exists_lists (h : Collects tree paths c (c', none)) :
    ∃ files, Lists tree paths files ∧ c'.manifests = c.manifests ++ files ∧
      ∀ names ∈ c'.reached, names ∈ c.reached ∨
        ∃ file ∈ files, tree.canonical? file.path = some names := by
  generalize houtcome : (c', none) = outcome at h
  induction h generalizing c' with
  | done c =>
    cases houtcome
    exact ⟨[], .done, (List.append_nil _).symm, fun names hnames => .inl hnames⟩
  | again _ => cases houtcome
  | unread _ _ => cases houtcome
  | stopped _ _ _ _ => cases houtcome
  | read hreach hread _ _ ihbelow ihrest =>
    obtain ⟨below, hbelow, hmanifests, hreached⟩ := ihbelow rfl
    obtain ⟨others, hothers, hmanifests', hreached'⟩ := ihrest houtcome
    obtain ⟨names, hnames, _, _, rfl⟩ := visits hreach hread
    refine ⟨_, .read hread hbelow hothers, ?_, fun other hother => ?_⟩
    · rw [hmanifests', hmanifests, List.append_assoc, List.append_assoc]
      rfl
    · rcases hreached' other hother with hother | ⟨file, hfile, hother⟩
      · rcases hreached other hother with hother | ⟨file, hfile, hother⟩
        · rcases List.mem_cons.mp hother with rfl | hother
          · exact .inr ⟨_, List.mem_cons_self, hnames⟩
          · exact .inl hother
        · exact .inr ⟨file, List.mem_append_left _ (List.mem_cons_of_mem _ hfile), hother⟩
      · exact .inr ⟨file, List.mem_append_right _ hfile, hother⟩

/-- A way has a first position. -/
theorem Leads.exists_cons (h : Leads tree paths route target) :
    ∃ position others, route = position :: others := by
  cases h with
  | here => exact ⟨_, _, rfl⟩
  | through => exact ⟨_, _, rfl⟩
  | later => exact ⟨_, _, rfl⟩

/-- What includes lead to is listed. -/
theorem Lists.mem_of_leads (h : Lists tree paths files) (hleads : Leads tree paths route target) :
    ∃ manifest, readManifest tree target = .ok manifest ∧ ⟨target, manifest⟩ ∈ files := by
  induction h generalizing route with
  | done => cases hleads
  | read hread _ _ ihbelow ihrest =>
    cases hleads with
    | here => exact ⟨_, hread, List.mem_cons_self⟩
    | through hread' hleads =>
      rw [hread, Except.ok.injEq] at hread'
      subst hread'
      obtain ⟨manifest, htarget, hfile⟩ := ihbelow hleads
      exact ⟨manifest, htarget, List.mem_append_left _ (List.mem_cons_of_mem _ hfile)⟩
    | later hleads =>
      obtain ⟨manifest, htarget, hfile⟩ := ihrest hleads
      exact ⟨manifest, htarget, List.mem_append_right _ hfile⟩

/-- Includes lead to what is listed. -/
theorem Lists.exists_leads (h : Lists tree paths files) (hfile : file ∈ files) :
    ∃ route, Leads tree paths route file.path := by
  induction h with
  | done => cases hfile
  | read hread _ _ ihbelow ihrest =>
    rcases List.mem_append.mp hfile with hfile | hfile
    · rcases List.mem_cons.mp hfile with rfl | hfile
      · exact ⟨_, .here _ _⟩
      · obtain ⟨route, hleads⟩ := ihbelow hfile
        exact ⟨_, .through hread hleads⟩
    · obtain ⟨route, hleads⟩ := ihrest hfile
      obtain ⟨position, others, rfl⟩ := hleads.exists_cons
      exact ⟨_, .later hleads⟩

end Listing

section Ways

/-- A way from paths starts at the first, whose manifest is known, or at another one. -/
theorem Leads.cases_of_readManifest (h : Leads tree (path :: rest) route target)
    (hread : readManifest tree path = .ok manifest) :
    route = [0] ∧ target = path ∨
      (∃ inner, route = 0 :: inner ∧
        Leads tree (ManifestFile.included ⟨path, manifest⟩) inner target) ∨
      ∃ position inner, route = (position + 1) :: inner ∧
        Leads tree rest (position :: inner) target := by
  cases h with
  | here => exact .inl ⟨rfl, rfl⟩
  | through hread' hinner =>
    rw [hread, Except.ok.injEq] at hread'
    subst hread'
    exact .inr (.inl ⟨_, rfl, hinner⟩)
  | later hinner => exact .inr (.inr ⟨_, _, rfl, hinner⟩)

/-- The files that includes lead to are those of the listed manifests. -/
theorem Lists.canonical?_mem (h : Lists tree paths files) (hleads : Leads tree paths route target) :
    tree.canonical? target ∈ files.map fun file => tree.canonical? file.path := by
  obtain ⟨manifest, _, hfile⟩ := h.mem_of_leads hleads
  exact List.mem_map.mpr ⟨_, hfile, rfl⟩

/-- Includes lead to no file in two ways if no two of the listed manifests are from one file. -/
theorem Lists.route_unique {route' : List Nat} {target' : String} (h : Lists tree paths files)
    (hdistinct : (files.map fun file => tree.canonical? file.path).Nodup)
    (hleads : Leads tree paths route target) (hleads' : Leads tree paths route' target')
    (hsame : tree.canonical? target = tree.canonical? target') : route = route' := by
  induction h generalizing route route' with
  | done => cases hleads
  | @read path rest manifest below others hread hbelow hrest ihbelow ihrest =>
    rw [List.map_append, List.map_cons, List.nodup_append', List.nodup_cons] at hdistinct
    obtain ⟨⟨hfirst, hdistinct⟩, hdistinct', hapart⟩ := hdistinct
    -- two ways that start apart would find the files of their manifests among each other
    rcases hleads.cases_of_readManifest hread with
      ⟨rfl, rfl⟩ | ⟨inner, rfl, hinner⟩ | ⟨position, inner, rfl, hinner⟩ <;>
    rcases hleads'.cases_of_readManifest hread with
      ⟨rfl, rfl⟩ | ⟨inner', rfl, hinner'⟩ | ⟨position', inner', rfl, hinner'⟩
    · rfl
    · exact absurd (hsame ▸ hbelow.canonical?_mem hinner') hfirst
    · exact absurd (hsame ▸ hrest.canonical?_mem hinner') (hapart List.mem_cons_self)
    · exact absurd (hsame ▸ hbelow.canonical?_mem hinner) hfirst
    · rw [ihbelow hdistinct hinner hinner']
    · exact absurd (hsame ▸ hrest.canonical?_mem hinner')
        (hapart (List.mem_cons_of_mem _ (hbelow.canonical?_mem hinner)))
    · exact absurd (hsame ▸ hrest.canonical?_mem hinner) (hapart List.mem_cons_self)
    · exact absurd (hsame ▸ hrest.canonical?_mem hinner)
        (hapart (List.mem_cons_of_mem _ (hbelow.canonical?_mem hinner')))
    · have hroute := ihrest hdistinct' hinner hinner'
      rw [List.cons.injEq] at hroute ⊢
      exact ⟨congrArg (· + 1) hroute.1, hroute.2⟩

/-- What is listed once for each file is reached once. -/
theorem Lists.reachesOnce (h : Lists tree paths files)
    (hdistinct : (files.map fun file => tree.canonical? file.path).Nodup) :
    ReachesOnce tree paths := by
  refine ⟨fun route path hleads => ?_, fun route route' path path' => h.route_unique hdistinct⟩
  obtain ⟨manifest, hread, _⟩ := h.mem_of_leads hleads
  exact ⟨manifest, hread⟩

/-- What the first manifest includes is reached once if everything is. -/
theorem ReachesOnce.through (honce : ReachesOnce tree (path :: rest))
    (hread : readManifest tree path = .ok manifest) :
    ReachesOnce tree (ManifestFile.included ⟨path, manifest⟩) := by
  refine ⟨fun route target hleads => honce.readable _ target (.through hread hleads), ?_⟩
  intro route route' target target' hleads hleads' hsame
  exact List.tail_eq_of_cons_eq
    (honce.once _ _ target target' (.through hread hleads) (.through hread hleads') hsame)

/-- What the other paths lead to is reached once if everything is. -/
theorem ReachesOnce.later (honce : ReachesOnce tree (path :: rest)) : ReachesOnce tree rest := by
  refine ⟨fun route target hleads => ?_, fun route route' target target' hleads hleads' hsame => ?_⟩
  · obtain ⟨position, inner, rfl⟩ := hleads.exists_cons
    exact honce.readable _ target (.later hleads)
  · obtain ⟨position, inner, rfl⟩ := hleads.exists_cons
    obtain ⟨position', inner', rfl⟩ := hleads'.exists_cons
    have hroute := honce.once _ _ target target' (.later hleads) (.later hleads') hsame
    rw [List.cons.injEq, Nat.add_right_cancel_iff] at hroute
    rw [hroute.1, hroute.2]

/-- What the first manifest includes is apart from its own file, and from what everything is. -/
theorem ReachesOnce.leadsApart_through {names : List String} {reached : List (List String)}
    (honce : ReachesOnce tree (path :: rest)) (hread : readManifest tree path = .ok manifest)
    (hnames : tree.canonical? path = some names)
    (hapart : LeadsApart tree (path :: rest) reached) :
    LeadsApart tree (ManifestFile.included ⟨path, manifest⟩) (names :: reached) := by
  intro route target other hleads hother hreached
  have hinner : Leads tree (path :: rest) (0 :: route) target := .through hread hleads
  rcases List.mem_cons.mp hreached with rfl | hreached
  · have hroute := honce.once _ _ _ _ hinner (.here path rest) (hother.trans hnames.symm)
    obtain ⟨position, inner, rfl⟩ := hleads.exists_cons
    cases hroute
  · exact hapart _ target other hinner hother hreached

/-- What the other paths lead to is apart from all that the first one led to. -/
theorem ReachesOnce.leadsApart_later {names : List String} {reached reached' : List (List String)}
    {below : List ManifestFile} (honce : ReachesOnce tree (path :: rest))
    (hread : readManifest tree path = .ok manifest) (hnames : tree.canonical? path = some names)
    (hbelow : Lists tree (ManifestFile.included ⟨path, manifest⟩) below)
    (hapart : LeadsApart tree (path :: rest) reached)
    (hreached : ∀ names' ∈ reached', names' ∈ names :: reached ∨
      ∃ file ∈ below, tree.canonical? file.path = some names') :
    LeadsApart tree rest reached' := by
  intro route target other hleads hother hmem
  obtain ⟨position, inner, rfl⟩ := hleads.exists_cons
  have houter : Leads tree (path :: rest) ((position + 1) :: inner) target := .later hleads
  rcases hreached other hmem with hmem | ⟨file, hfile, hsame⟩
  · rcases List.mem_cons.mp hmem with rfl | hmem
    · have hroute := honce.once _ _ _ _ houter (.here path rest) (hother.trans hnames.symm)
      cases hroute
    · exact hapart _ target other houter hother hmem
  · obtain ⟨route, hinner⟩ := hbelow.exists_leads hfile
    have hroute := honce.once _ _ _ _ houter (.through hread hinner) (hother.trans hsame.symm)
    cases hroute

/-- Collecting goes through where everything is reached once and none of it was reached before. -/
theorem Collects.eq_none (h : Collects tree paths c outcome) (honce : ReachesOnce tree paths)
    (hapart : LeadsApart tree paths c.reached) : outcome.2 = none := by
  induction h with
  | done c => rfl
  | again hreach =>
    obtain ⟨names, hnames, hreached⟩ := reach?_eq_none_iff.mp hreach
    exact absurd hreached (hapart _ _ names (.here _ _) hnames)
  | unread _ hread =>
    obtain ⟨manifest, hread'⟩ := honce.readable _ _ (.here _ _)
    rw [hread] at hread'
    cases hread'
  | stopped hreach hread _ ih =>
    obtain ⟨names, hnames, _, _, rfl⟩ := visits hreach hread
    exact ih (honce.through hread) (honce.leadsApart_through hread hnames hapart)
  | read hreach hread hbelow _ _ ihrest =>
    obtain ⟨names, hnames, _, _, rfl⟩ := visits hreach hread
    obtain ⟨below, hlists, _, hreached⟩ := hbelow.exists_lists
    exact ihrest honce.later (honce.leadsApart_later hread hnames hlists hapart hreached)

end Ways

/-- What is collected from a path is what the path comes to. -/
theorem collects_ofPath (tree : FileTree) (path : String) :
    Collects tree [path] .empty (ofPath tree path) :=
  collects_addWithin (Nat.lt_succ_self _)

/-- No file is read twice, whether collecting goes through or not. -/
theorem oncePerFile_ofPath (tree : FileTree) (path : String) :
    OncePerFile tree (ofPath tree path).1 :=
  (collects_ofPath tree path).oncePerFile oncePerFile_empty

/-- Where collecting goes through, the manifests are those of the listing. -/
theorem lists_ofPath (hnone : (ofPath tree path).2 = none) :
    Lists tree [path] (ofPath tree path).1.manifests := by
  have hcollects := collects_ofPath tree path
  generalize ofPath tree path = outcome at hcollects hnone ⊢
  obtain ⟨c, fault⟩ := outcome
  subst hnone
  obtain ⟨files, hlists, hmanifests, _⟩ := hcollects.exists_lists
  rw [hmanifests]
  exact hlists

/-- Collecting from a path goes through exactly if all that includes lead to is reached once. -/
theorem ofPath_eq_none_iff : (ofPath tree path).2 = none ↔ ReachesOnce tree [path] := by
  refine ⟨fun hnone => ?_, fun honce => ?_⟩
  · exact (lists_ofPath hnone).reachesOnce (oncePerFile_ofPath tree path).distinct
  · exact (collects_ofPath tree path).eq_none honce fun _ _ _ _ _ => List.not_mem_nil

/-- The manifests behind a corpus are those that were collected, whether it loads or not. -/
theorem loadFrom_fst (tree : FileTree) (root : String) :
    (Corpus.loadFrom tree root).1 = (ofPath tree (Corpus.manifestPath tree root)).1.manifests := by
  rw [Corpus.loadFrom]
  generalize ofPath tree (Corpus.manifestPath tree root) = outcome
  obtain ⟨c, fault⟩ := outcome
  cases fault <;> rfl

/-- A corpus loads only where collecting goes through. -/
theorem ofPath_eq_none_of_load {root : String} {corpus : Corpus}
    (hload : Corpus.load tree root = .ok corpus) :
    (ofPath tree (Corpus.manifestPath tree root)).2 = none := by
  rw [Corpus.load, Corpus.loadFrom] at hload
  generalize ofPath tree (Corpus.manifestPath tree root) = outcome at hload ⊢
  obtain ⟨c, fault⟩ := outcome
  cases fault with
  | some e => cases hload
  | none => rfl

/-- Collecting manifests from a path comes to an end, with one outcome, on every tree, however its
manifests include one another, and no file is read twice. It goes through exactly if includes lead
to nothing but manifests and to no file in two ways; then the manifests are in pre-order, and a
corpus that loads has the vectors of their entries in that order. -/
theorem ofPath_preorder (tree : FileTree) (path : String) :
    Collects tree [path] .empty (ofPath tree path) ∧
      (∀ outcome, Collects tree [path] .empty outcome → outcome = ofPath tree path) ∧
      (∀ depth, tree.files.length < depth →
        addWithin tree depth path .empty = ofPath tree path) ∧
      OncePerFile tree (ofPath tree path).1 ∧
      (ofPath tree path).1.manifests.length ≤ tree.files.length ∧
      ((ofPath tree path).2 = none ↔ ReachesOnce tree [path]) ∧
      ((ofPath tree path).2 = none →
        ∀ files, Lists tree [path] files ↔ files = (ofPath tree path).1.manifests) ∧
      ∀ root corpus, Corpus.manifestPath tree root = path → Corpus.load tree root = .ok corpus →
        (ofPath tree path).2 = none ∧
          List.Forall₂
            (fun origin v => VectorEntry.Declares tree corpus.typeNamed? origin.1 origin.2 v)
            (entriesOf (ofPath tree path).1.manifests) corpus.vectors := by
  refine ⟨collects_ofPath tree path, fun outcome => Collects.eq_ofPath,
    fun depth hdepth => (collects_addWithin hdepth).eq_ofPath, oncePerFile_ofPath tree path,
    (oncePerFile_ofPath tree path).length_le, ofPath_eq_none_iff, fun hnone files => ?_,
    fun root corpus hroot hload => ?_⟩
  · have hlists := lists_ofPath hnone
    exact ⟨fun h => h.unique hlists, fun h => h ▸ hlists⟩
  · subst hroot
    have hmanifests := Corpus.load_eq_ok hload
    rw [loadFrom_fst] at hmanifests
    exact ⟨ofPath_eq_none_of_load hload, (Corpus.ofManifests_eq_ok hmanifests).1⟩

/-- Four manifests load in pre-order, with their vectors; one that includes itself is refused. -/
theorem ofPath_preorder_including :
    (ofPath Samples.includingTree "corpus.json").1.manifests.map ManifestFile.path =
        ["corpus.json", "parts/a.json", "parts/../parts/./c.json", "b.json"] ∧
      ReachesOnce Samples.includingTree ["corpus.json"] ∧
      Lists Samples.includingTree ["corpus.json"]
        (ofPath Samples.includingTree "corpus.json").1.manifests ∧
      (∃ corpus, Corpus.load Samples.includingTree "corpus.json" = .ok corpus ∧
        corpus.vectors.map TestVector.caseName = ["top", "a", "c", "b"] ∧
        List.Forall₂ (fun origin v => VectorEntry.Declares Samples.includingTree corpus.typeNamed?
            origin.1 origin.2 v)
          (entriesOf (ofPath Samples.includingTree "corpus.json").1.manifests) corpus.vectors) ∧
      (ofPath Samples.circularTree "corpus.json").2 =
        some (.load "./corpus.json" .includedTwice) ∧
      ¬ReachesOnce Samples.circularTree ["corpus.json"] := by
  have hmain : Corpus.manifestPath Samples.includingTree "corpus.json" = "corpus.json" := by
    decide +kernel
  have hrun : (fun run : List ManifestFile × Except RunError Corpus =>
      (run.1.map ManifestFile.path,
        run.2.toOption.map fun corpus => corpus.vectors.map TestVector.caseName))
      (Corpus.loadFrom Samples.includingTree "corpus.json") =
        (["corpus.json", "parts/a.json", "parts/../parts/./c.json", "b.json"],
          some ["top", "a", "c", "b"]) := by decide +kernel
  obtain ⟨hpaths, hloads⟩ := Prod.mk.inj hrun
  rw [loadFrom_fst, hmain] at hpaths
  obtain ⟨corpus, hsome, hnames⟩ := Option.map_eq_some_iff.mp hloads
  have hload : Corpus.load Samples.includingTree "corpus.json" = .ok corpus := by
    rw [Corpus.load]
    cases hresult : (Corpus.loadFrom Samples.includingTree "corpus.json").2 with
    | error fault => rw [hresult] at hsome; cases hsome
    | ok other => rw [hresult] at hsome; cases hsome; rfl
  obtain ⟨_, _, _, _, _, hiff, hlists, hvectors⟩ :=
    ofPath_preorder Samples.includingTree "corpus.json"
  obtain ⟨hnone, hdeclares⟩ := hvectors "corpus.json" corpus hmain hload
  have hcircular : (ofPath Samples.circularTree "corpus.json").2 =
      some (.load "./corpus.json" .includedTwice) := by decide +kernel
  refine ⟨hpaths, hiff.mp hnone, (hlists hnone _).mpr rfl, ⟨corpus, hload, hnames, hdeclares⟩,
    hcircular, fun honce => ?_⟩
  obtain ⟨_, _, _, _, _, hiff', _⟩ := ofPath_preorder Samples.circularTree "corpus.json"
  rw [hiff'.mpr honce] at hcircular
  cases hcircular

end Collection

end WireParity
