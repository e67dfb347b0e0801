import CodeIndex.Indexing
import CodeIndex.Proofs.Resolve.Specifier

/-!
Specifiers that are not relative. Each of them stands for paths from the root, and each path becomes
a specifier relative to the importing file. That specifier leads back to the path, so the file that
is found is the same for all importing files. An absolute specifier is no exception: unless a pattern
takes it, it is read below the base directory, if there is one.
-/
namespace CodeIndex.Resolve

namespace Aliases

/-- Aliases of a configuration, or none. -/
inductive Loaded : Aliases → Prop
  | none : Loaded .none
  | text {s : String} {a : Aliases} (h : ofText s = .ok a) : Loaded a

theorem Loaded.of_toOption {s : String} {a : Aliases} (h : (ofText s).toOption = some a) :
    a.Loaded := by
  cases hconfig : ofText s with
  | error fault => simp [hconfig, Except.toOption] at h
  | ok b =>
    rw [hconfig, Except.toOption, Option.some.injEq] at h
    exact h ▸ .text hconfig

/-- Indexing takes the aliases of a configuration. -/
theorem loaded_aliasesOf (t : Files.Tree) (root : Files.Location) :
    (Indexing.aliasesOf t root).Loaded := by
  unfold Indexing.aliasesOf
  split
  · exact .none
  · next text _ =>
    cases hconfig : ofText text with
    | error fault => exact .none
    | ok a => exact .text hconfig

variable {a : Aliases}

/-- The base directory of a configuration lies inside the root. -/
theorem Loaded.isFolded_base (h : a.Loaded) {base : String} (hbase : a.base = some base) :
    IsFolded base := by
  cases h with
  | none => cases hbase
  | @text s _ h =>
    unfold ofText at h
    cases hconfig : Json.decode schema (Json.Relaxed.strip s) with
    | error fault => simp [hconfig, Except.map] at h
    | ok config =>
      rw [hconfig, Except.map, Except.ok.injEq] at h
      subst h
      unfold ofValue at hbase
      split at hbase
      · obtain ⟨directory, -, hjoin⟩ := Option.bind_eq_some_iff.mp hbase
        exact isFolded_root.join? hjoin
      · cases hbase

/-- The directory that targets are read below. -/
theorem Loaded.isFolded_start (h : a.Loaded) : IsFolded (a.base.getD "") := by
  cases hbase : a.base with
  | none => exact isFolded_root
  | some base => exact h.isFolded_base hbase

/-- The paths that a specifier may stand for lie inside the root. -/
theorem Loaded.isFolded_candidate (h : a.Loaded) {specifier path : String}
    (hpath : path ∈ a.candidatePaths specifier) : IsFolded path := by
  unfold candidatePaths at hpath
  rcases List.mem_append.mp hpath with hpath | hpath
  · split at hpath
    · obtain ⟨target, -, hjoin⟩ := List.mem_filterMap.mp hpath
      exact h.isFolded_start.join? hjoin
    · cases hpath
  · split at hpath
    · exact h.isFolded_start.join? (Option.mem_toList.mp hpath)
    · cases hpath

end Aliases

/-! Finding files -/

theorem findSome?_congr {α β : Type} {f g : α → Option β} {xs : List α}
    (h : ∀ x ∈ xs, f x = g x) : xs.findSome? f = xs.findSome? g := by
  induction xs with
  | nil => rfl
  | cons x rest ih =>
    rw [List.findSome?_cons, List.findSome?_cons, h x List.mem_cons_self,
      ih fun y hy => h y (List.mem_cons_of_mem _ hy)]

/-- Each path is read from the root, wherever the importing file stands. -/
theorem resolve_eq_findSome? (known : List String) {a : Aliases} (h : a.Loaded) {specifier : String}
    (hbare : isRelative specifier = false) (fromFile : String) :
    resolve known a specifier fromFile =
      (a.candidatePaths specifier).findSome? fun path => resolveImport known ("./" ++ path) "" := by
  rw [resolve, if_neg (by simp [hbare]), Aliases.rewrite, List.findSome?_map]
  apply findSome?_congr
  intro path hpath
  have hfolded := h.isFolded_candidate hpath
  rw [Function.comp_apply, resolveImport_specifierTo known fromFile hfolded,
    resolveImport_fromRoot known hfolded]

/-- Who imports does not matter. A specifier that is not relative stands for paths inside the root,
which are the targets of the pattern that it matches, read below the base directory, and then the
specifier itself below it; from any file, it leads to what the first of them does that leads from
the root to a known file. -/
theorem resolve_bare (known : List String) {a : Aliases} (h : a.Loaded) {specifier : String}
    (hbare : isRelative specifier = false) :
    (∀ path ∈ a.candidatePaths specifier, IsFolded path) ∧ ∀ fromFile,
      resolve known a specifier fromFile =
        (a.candidatePaths specifier).findSome? fun path => resolveImport known ("./" ++ path) "" :=
  ⟨fun _ hpath => h.isFolded_candidate hpath, resolve_eq_findSome? known h hbare⟩

/-- Aliases of a base directory and one pattern, whose first target leaves the root. -/
def sampleAliases : Aliases := ⟨some "src", [⟨"@", some "", ["../../x", "../*"]⟩]⟩

theorem loaded_sampleAliases : sampleAliases.Loaded := by
  have hconfig : (Aliases.ofText ("\x7b\"compilerOptions\":\x7b\"baseUrl\":\"src\",\"paths\":" ++
      "\x7b\"@*\":[\"../../x\",\"../*\"]\x7d\x7d\x7d")).toOption = some sampleAliases := by
    decide +kernel
  exact .of_toOption hconfig

theorem resolve_bare_secondTarget :
    isRelative "@/a" = false ∧ sampleAliases.candidatePaths "@/a" = ["a", "src/@/a"] ∧
      resolve ["src/@/a.ts", "a/index.js"] sampleAliases "@/a" "src/deep/x.ts" =
        some "a/index.js" := by
  have hbare : isRelative "@/a" = false := by decide +kernel
  have hpaths : sampleAliases.candidatePaths "@/a" = ["a", "src/@/a"] := by decide +kernel
  obtain ⟨-, hfound⟩ := resolve_bare ["src/@/a.ts", "a/index.js"] loaded_sampleAliases hbare
  refine ⟨hbare, hpaths, ?_⟩
  rw [hfound "src/deep/x.ts", hpaths]
  decide +kernel

/-! Absolute specifiers -/

/-- A relative specifier starts with a full stop. -/
theorem head?_of_isRelative {specifier : String} (h : isRelative specifier = true) :
    specifier.toList.head? = some '.' := by
  simp only [isRelative, Bool.or_eq_true, beq_iff_eq, String.startsWith_string_iff] at h
  rcases h with ((⟨rest, hrest⟩ | ⟨rest, hrest⟩) | rfl) | rfl
  · rw [← hrest]
    rfl
  · rw [← hrest]
    rfl
  · rfl
  · rfl

theorem isRelative_absolute (rest : String) : isRelative ("/" ++ rest) = false := by
  rw [← Bool.not_eq_true]
  intro hrelative
  have hhead := head?_of_isRelative hrelative
  rw [String.toList_append] at hhead
  exact absurd (Option.some.inj hhead) (by decide)

/-- The stroke at the start of a specifier counts for nothing when it is read below a directory. -/
theorem join?_absolute (dir rest : String) : join? dir ("/" ++ rest) = join? dir rest := by
  have hsplit : Text.Pieces.split '/' ("/" ++ rest) = "" :: Text.Pieces.split '/' rest := by
    rw [← String.empty_append (s := "/"), split_stroke (by decide)]
  rw [join?, hsplit]
  rfl

/-- An absolute specifier that no pattern takes leads nowhere without a base directory. With one it
leads to the file that the rest of it names below that directory. -/
theorem resolve_absolute (known : List String) {a : Aliases} (h : a.Loaded) {rest : String}
    (hnone : ∀ p ∈ a.patterns, p.match? ("/" ++ rest) = none) (fromFile : String) :
    (a.base = none → resolve known a ("/" ++ rest) fromFile = none) ∧
      ∀ base, a.base = some base →
        resolve known a ("/" ++ rest) fromFile =
          (join? base rest).bind fun path => resolveImport known ("./" ++ path) "" := by
  have hselect : a.select ("/" ++ rest) = none := by
    rw [Aliases.select, List.findSome?_eq_none_iff]
    intro p hp
    rw [hnone p hp, Option.map_none]
  have hpaths : a.candidatePaths ("/" ++ rest) =
      (a.base.bind fun base => join? base rest).toList := by
    rw [Aliases.candidatePaths, hselect]
    cases a.base <;> simp [join?_absolute]
  rw [resolve_eq_findSome? known h (isRelative_absolute rest), hpaths]
  refine ⟨fun hbase => by rw [hbase]; rfl, fun base hbase => ?_⟩
  rw [hbase, Option.bind_some]
  cases join? base rest <;> simp

/-- With a base directory, an absolute specifier that no pattern takes can lead to a file. -/
theorem resolve_absolute_belowBase :
    (∀ p ∈ sampleAliases.patterns, p.match? ("/" ++ "util") = none) ∧
      resolve ["src/util.ts"] sampleAliases ("/" ++ "util") "a.ts" = some "src/util.ts" := by
  have hnone : ∀ p ∈ sampleAliases.patterns, p.match? ("/" ++ "util") = none := by decide +kernel
  obtain ⟨-, hfound⟩ := resolve_absolute ["src/util.ts"] loaded_sampleAliases hnone "a.ts"
  refine ⟨hnone, ?_⟩
  rw [hfound "src" rfl]
  decide +kernel

end CodeIndex.Resolve
