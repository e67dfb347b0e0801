import CodeIndex.Proofs.Files.Directory
import CodeIndex.Resolve.Import

/-!
The way from a file to a target and back. A relative specifier goes up from the directory of a file
until that directory holds the target, and then down. Folding it into the directory gives the target
back, whatever the segments of the directory are, as long as those of the target are plain names.
-/
namespace CodeIndex.Resolve

open Files.Tree (IsPlain IsFileName)

/-! Paths made of names -/

theorem intercalate_split (path : String) : "/".intercalate (Text.Pieces.split '/' path) = path := by
  apply String.toList_inj.mp
  have hpieces := Text.Pieces.intercalate_splitChars '/' path.toList
  simpa [Text.Pieces.split, String.toList_intercalate, Function.comp_def] using hpieces

/-- Names that are joined to a path are found again. -/
theorem split_intercalate {names : List String} (hne : names ≠ [])
    (h : ∀ name ∈ names, '/' ∉ name.toList) :
    Text.Pieces.split '/' ("/".intercalate names) = names := by
  have hpieces : Text.Pieces.splitChars '/' (['/'].intercalate (names.map String.toList)) =
      names.map String.toList := by
    apply Text.Pieces.splitChars_intercalate (by simpa using hne)
    intro piece hpiece
    obtain ⟨name, hname, rfl⟩ := List.mem_map.mp hpiece
    exact h name hname
  have hchars : ("/".intercalate names).toList = ['/'].intercalate (names.map String.toList) :=
    String.toList_intercalate
  rw [Text.Pieces.split, hchars, hpieces]
  simp [Function.comp_def]

/-- What stands before a stroke is cut off. -/
theorem split_stroke {first : String} (h : '/' ∉ first.toList) (rest : String) :
    Text.Pieces.split '/' (first ++ "/" ++ rest) = first :: Text.Pieces.split '/' rest := by
  have hchars : (first ++ "/" ++ rest).toList = first.toList ++ '/' :: rest.toList := by
    simp [String.toList_append]
  rw [Text.Pieces.split, hchars, Text.Pieces.splitChars_append h]
  simp [Text.Pieces.split]

/-- A path from the root that is written without segments to fold away. The empty path is the root
itself. -/
def IsFolded (path : String) : Prop :=
  ∃ names, (∀ name ∈ names, IsFileName name) ∧ path = "/".intercalate names

theorem isFolded_root : IsFolded "" := ⟨[], by simp, rfl⟩

theorem isFolded_of_split {path : String} (h : ∀ s ∈ Text.Pieces.split '/' path, IsPlain s) :
    IsFolded path :=
  ⟨Text.Pieces.split '/' path, fun s hs => ⟨h s hs, Files.Tree.not_mem_names hs⟩,
    (intercalate_split path).symm⟩

theorem segments_intercalate {names : List String} (h : ∀ name ∈ names, IsFileName name) :
    segments ("/".intercalate names) = names := by
  by_cases hne : names = []
  · subst hne
    rfl
  · rw [segments, split_intercalate hne fun name hname => (h name hname).whole,
      List.filter_eq_self]
    intro name hname
    simpa using (h name hname).plain.1

/-! Folding -/

/-- A name leads one step down. -/
theorem fold_name {name : String} (h : IsPlain name) (dir rest : List String) :
    fold dir (name :: rest) = fold (name :: dir) rest := by
  obtain ⟨hempty, hhere, hup⟩ := h
  rw [fold] <;> simp_all

/-- Names lead down from a directory. -/
theorem fold_names {dir names : List String} (h : ∀ name ∈ names, IsPlain name) :
    fold dir names = some (names.reverse ++ dir) := by
  induction names generalizing dir with
  | nil => rfl
  | cons name rest ih =>
    rw [fold_name (h name List.mem_cons_self), ih fun n hn => h n (List.mem_cons_of_mem _ hn)]
    simp

/-- As many steps up lead out of as many directories, whatever these are called. -/
theorem fold_ups (below dir rest : List String) :
    fold (below ++ dir) (List.replicate below.length ".." ++ rest) = fold dir rest := by
  induction below with
  | nil => rfl
  | cons name below ih => exact ih

/-- Folding names that paths do not cut gives such names again. -/
theorem isFileName_of_fold {dir parts out : List String} (hdir : ∀ name ∈ dir, IsFileName name)
    (hparts : ∀ part ∈ parts, '/' ∉ part.toList) (h : fold dir parts = some out) :
    ∀ name ∈ out, IsFileName name := by
  induction parts generalizing dir with
  | nil =>
    rw [fold, Option.some.injEq] at h
    exact h ▸ hdir
  | cons part rest ih =>
    have hrest := fun p hp => hparts p (List.mem_cons_of_mem part hp)
    by_cases hskip : part = "" ∨ part = "."
    · have hstep : fold dir (part :: rest) = fold dir rest := by
        rcases hskip with rfl | rfl <;> simp [fold]
      exact ih hdir hrest (hstep ▸ h)
    · by_cases hup : part = ".."
      · subst hup
        cases dir with
        | nil => simp [fold] at h
        | cons name dir => exact ih (fun n hn => hdir n (List.mem_cons_of_mem _ hn)) hrest h
      · rw [not_or] at hskip
        have hplain : IsPlain part := ⟨hskip.1, hskip.2, hup⟩
        refine ih ?_ hrest (fold_name hplain dir rest ▸ h)
        intro n hn
        rcases List.mem_cons.mp hn with rfl | hn
        · exact ⟨hplain, hparts n List.mem_cons_self⟩
        · exact hdir n hn

/-- What a join leads to is folded, if it starts from a folded directory. -/
theorem IsFolded.join? {dir specifier path : String} (hdir : IsFolded dir)
    (h : Resolve.join? dir specifier = some path) : IsFolded path := by
  obtain ⟨names, hnames, rfl⟩ := hdir
  obtain ⟨out, hout, rfl⟩ := Option.map_eq_some_iff.mp h
  rw [segments_intercalate hnames] at hout
  refine ⟨out.reverse, fun name hname => ?_, rfl⟩
  refine isFileName_of_fold (fun n hn => hnames n (List.mem_reverse.mp hn)) ?_ hout name
    (List.mem_reverse.mp hname)
  exact fun part hpart => Files.Tree.not_mem_names hpart

/-! The way to a target -/

/-- Two lists begin with the same names, before what is left of them. -/
theorem exists_common (as bs : List String) :
    ∃ common, as = common ++ (dropCommon as bs).1 ∧ bs = common ++ (dropCommon as bs).2 := by
  fun_induction dropCommon as bs with
  | case1 as a bs ih =>
    obtain ⟨common, has, hbs⟩ := ih
    exact ⟨a :: common, by rw [List.cons_append, ← has], by rw [List.cons_append, ← hbs]⟩
  | case2 a as b bs hne => exact ⟨[], rfl, rfl⟩
  | case3 as bs hnone => exact ⟨[], rfl, rfl⟩

/-- A specifier to a folded target is a full stop or steps up, and then names. They lead up to a
directory that holds the target and down from there. -/
theorem specifierTo_parts (fromFile : String) {names : List String}
    (h : ∀ name ∈ names, IsFileName name) :
    ∃ common ups downs start, segments (Path.directory fromFile) = common ++ ups ∧
      names = common ++ downs ∧ (ups = [] ∧ start = ["."] ∨
        ups ≠ [] ∧ start = List.replicate ups.length "..") ∧
      specifierTo fromFile ("/".intercalate names) = "/".intercalate (start ++ downs) := by
  obtain ⟨common, hups, hdowns⟩ := exists_common (segments (Path.directory fromFile)) names
  refine ⟨common, _, _, _, hups, hdowns, ?_, by rw [specifierTo, segments_intercalate h]⟩
  by_cases hempty : (dropCommon (segments (Path.directory fromFile)) names).1 = []
  · exact .inl ⟨hempty, by simp [hempty]⟩
  · exact .inr ⟨hempty, by simp [hempty, List.map_const']⟩

/-- A specifier whose first part is a single or a double full stop is relative. -/
theorem isRelative_intercalate {first : String} {rest : List String}
    (h : first = "." ∨ first = "..") : isRelative ("/".intercalate (first :: rest)) = true := by
  cases rest with
  | nil => rcases h with rfl | rfl <;> simp [isRelative]
  | cons second more =>
    rw [String.intercalate_cons_cons, isRelative]
    rcases h with rfl | rfl <;> simp [String.startsWith_string_iff]

theorem isRelative_specifierTo (fromFile : String) {target : String} (h : IsFolded target) :
    isRelative (specifierTo fromFile target) = true := by
  obtain ⟨names, hnames, rfl⟩ := h
  obtain ⟨-, ups, downs, start, -, -, hstart, hspecifier⟩ := specifierTo_parts fromFile hnames
  rw [hspecifier]
  rcases hstart with ⟨-, rfl⟩ | ⟨hups, rfl⟩
  · exact isRelative_intercalate (.inl rfl)
  · obtain ⟨up, ups, rfl⟩ := List.exists_cons_of_ne_nil hups
    exact isRelative_intercalate (.inr rfl)

/-- A specifier to a folded target leads to the target. -/
theorem join?_specifierTo (fromFile : String) {target : String} (h : IsFolded target) :
    join? (Path.directory fromFile) (specifierTo fromFile target) = some target := by
  obtain ⟨names, hnames, rfl⟩ := h
  obtain ⟨common, ups, downs, start, hdir, rfl, hstart, hspecifier⟩ :=
    specifierTo_parts fromFile hnames
  have hsplit : Text.Pieces.split '/' ("/".intercalate (start ++ downs)) = start ++ downs := by
    apply split_intercalate
    · rcases hstart with ⟨-, rfl⟩ | ⟨hups, rfl⟩ <;> simp_all
    · intro part hpart
      rcases List.mem_append.mp hpart with hpart | hpart
      · rcases hstart with ⟨-, rfl⟩ | ⟨-, rfl⟩
        · rw [List.mem_singleton.mp hpart]
          decide
        · rw [List.eq_of_mem_replicate hpart]
          decide
      · exact (hnames part (List.mem_append_right _ hpart)).whole
  have hup : fold (ups.reverse ++ common.reverse) (start ++ downs) = fold common.reverse downs := by
    rcases hstart with ⟨rfl, rfl⟩ | ⟨-, rfl⟩
    · rfl
    · rw [← List.length_reverse, fold_ups]
  have hdown : fold common.reverse downs = some (downs.reverse ++ common.reverse) :=
    fold_names fun name hname => (hnames name (List.mem_append_right _ hname)).plain
  rw [join?, hspecifier, hsplit, hdir, List.reverse_append, hup, hdown]
  simp

/-! Files that specifiers name -/

/-- A specifier to a folded target names the same file, whichever file it stands in. -/
theorem resolveImport_specifierTo (known : List String) (fromFile : String) {target : String}
    (h : IsFolded target) :
    resolveImport known (specifierTo fromFile target) fromFile =
      (candidates target).find? known.contains := by
  rw [resolveImport, if_pos (isRelative_specifierTo fromFile h), join?_specifierTo fromFile h,
    Option.bind_some]

/-- From the root, a folded target is named by its own path. -/
theorem resolveImport_fromRoot (known : List String) {target : String} (h : IsFolded target) :
    resolveImport known ("./" ++ target) "" = (candidates target).find? known.contains := by
  obtain ⟨names, hnames, rfl⟩ := h
  have hrelative : isRelative ("./" ++ "/".intercalate names) = true := by
    simp [isRelative, String.startsWith_string_iff]
  have hsplit : Text.Pieces.split '/' ("./" ++ "/".intercalate names) =
      "." :: Text.Pieces.split '/' ("/".intercalate names) := by
    rw [show "./" = "." ++ "/" from rfl, split_stroke (by decide)]
  have hfold : fold [] (Text.Pieces.split '/' ("/".intercalate names)) = some names.reverse := by
    by_cases hne : names = []
    · subst hne
      rfl
    · rw [split_intercalate hne fun name hname => (hnames name hname).whole,
        fold_names fun name hname => (hnames name hname).plain, List.append_nil]
  rw [resolveImport, if_pos hrelative, join?, hsplit]
  change (((fold [] (Text.Pieces.split '/' ("/".intercalate names))).map _).bind _) = _
  rw [hfold]
  simp

/-- A known file with an indexed extension is its own best candidate. -/
theorem find?_candidates_self {known : List String} {target : String} (hknown : target ∈ known)
    (hext : hasIndexedExtension target = true) :
    (candidates target).find? known.contains = some target := by
  simp [candidates, hext, hknown]

/-- Relative specifiers make the round trip. For a target whose segments are plain names, the
specifier from any file to it is relative and leads from the directory of the file to exactly the
target; if the target is a known file with an indexed extension, an import of it finds the target. -/
theorem specifierTo_roundTrip (fromFile : String) {target : String}
    (h : ∀ s ∈ Text.Pieces.split '/' target, IsPlain s) :
    isRelative (specifierTo fromFile target) = true ∧
      join? (Path.directory fromFile) (specifierTo fromFile target) = some target ∧
      ∀ known, target ∈ known → hasIndexedExtension target = true →
        resolveImport known (specifierTo fromFile target) fromFile = some target := by
  have hfolded := isFolded_of_split h
  refine ⟨isRelative_specifierTo fromFile hfolded, join?_specifierTo fromFile hfolded, ?_⟩
  intro known hknown hext
  rw [resolveImport_specifierTo known fromFile hfolded, find?_candidates_self hknown hext]

/-- From a directory with odd segments to a file above it that has an extensionless neighbour. -/
theorem specifierTo_roundTrip_oddSegments :
    (∀ s ∈ Text.Pieces.split '/' "src/lib.v2/x.ts", IsPlain s) ∧
      hasIndexedExtension "src/lib.v2/x.ts" = true ∧
      specifierTo "src//../lib/.hidden/main.ts" "src/lib.v2/x.ts" = "../../../lib.v2/x.ts" ∧
      resolveImport ["src/lib.v2/x", "src/lib.v2/x.ts.ts", "src/lib.v2/x.ts"]
        "../../../lib.v2/x.ts" "src//../lib/.hidden/main.ts" = some "src/lib.v2/x.ts" := by
  have hnames : ∀ s ∈ Text.Pieces.split '/' "src/lib.v2/x.ts", IsPlain s := by
    unfold IsPlain
    decide
  have hext : hasIndexedExtension "src/lib.v2/x.ts" = true := by decide
  have hspecifier : specifierTo "src//../lib/.hidden/main.ts" "src/lib.v2/x.ts" =
      "../../../lib.v2/x.ts" := by decide
  obtain ⟨-, -, hfound⟩ := specifierTo_roundTrip "src//../lib/.hidden/main.ts" hnames
  rw [hspecifier] at hfound
  exact ⟨hnames, hext, hspecifier, hfound _ (by decide) hext⟩

end CodeIndex.Resolve
