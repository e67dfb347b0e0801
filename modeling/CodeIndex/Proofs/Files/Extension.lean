import CodeIndex.Proofs.Indexing
import CodeIndex.Proofs.Resolve.Specifier

/-!
Extensions of source files. Listing a directory reads the extension off the name of a file; the
language of a file and the imports of it read it off the whole path, behind the last full stop. The
readings agree where the name has an extension, whatever the directories are called. So a listed
file has a language with a grammar and is imported under its own name.
-/
namespace CodeIndex

open Files.Tree (IsFileName)

/-! Readings of an extension -/

/-- A path ends with its base name, which no stroke cuts. -/
theorem Path.exists_directory (path : String) :
    ∃ directory, path = directory ++ baseName path ∧ '/' ∉ (baseName path).toList := by
  unfold baseName
  split
  · next before base hcut =>
    obtain ⟨hpath, hbase⟩ := Text.Pieces.cutLast_eq_some_iff.mp hcut
    refine ⟨before ++ "/", ?_, hbase⟩
    apply String.toList_inj.mp
    simp [hpath, String.toList_append]
  · next hcut => exact ⟨"", by simp, Text.Pieces.cutLast_eq_none_iff.mp hcut⟩

/-- What an indexed extension has: a language, and nothing that a path is cut at. -/
theorem Language.supported_spec {ext : String} (h : isSupportedExtension ext = true) :
    ext ≠ "" ∧ '/' ∉ ext.toList ∧ ofExtension ext ≠ unknown := by
  have hall : ∀ ext ∈ extensions, ext ≠ "" ∧ '/' ∉ ext.toList ∧ ofExtension ext ≠ unknown := by
    decide
  exact hall ext (List.contains_iff_mem.mp h)

/-- Every language but the unknown one has a grammar. -/
theorem Source.Dialect.exists_ofLanguage? {language : Language} (h : language ≠ .unknown) :
    ∃ d, ofLanguage? language = some d := by
  cases language <;> simp_all [ofLanguage?]

namespace Files

/-- A name with an extension has something before its last full stop. -/
theorem exists_stem {name : String} (h : extensionOf name ≠ "") :
    ∃ stem, stem ≠ "" ∧ name.toList = stem.toList ++ '.' :: (extensionOf name).toList ∧
      '.' ∉ (extensionOf name).toList := by
  cases hcut : Text.Pieces.cutLast '.' name with
  | none => simp [extensionOf, hcut] at h
  | some parts =>
    obtain ⟨stem, ext⟩ := parts
    by_cases hstem : stem = ""
    · simp [extensionOf, hcut, hstem] at h
    · have hext : extensionOf name = ext := by simp [extensionOf, hcut, hstem]
      rw [hext]
      exact ⟨stem, hstem, Text.Pieces.cutLast_eq_some_iff.mp hcut⟩

/-- The extension of a name is that of every path that ends with the name. -/
theorem extensionOf?_append (directory : String) {name : String} (h : extensionOf name ≠ "")
    (hwhole : '/' ∉ (extensionOf name).toList) :
    Language.extensionOf? (directory ++ name) = some (extensionOf name) := by
  obtain ⟨stem, hstem, hname, hext⟩ := exists_stem h
  have hcut : Text.Pieces.cutLast '.' (directory ++ name) =
      some (directory ++ stem, extensionOf name) :=
    Text.Pieces.cutLast_eq_some_iff.mpr ⟨by simp [String.toList_append, hname], hext⟩
  rw [Language.extensionOf?, hcut]
  simp [hstem, hwhole]

/-- A path that is read as source code: it has a language with a grammar, and an import of exactly
this path may find it. -/
structure Indexable (path : String) : Prop where
  language : Language.ofPath path ≠ .unknown
  grammar : ∃ d, Source.Dialect.ofLanguage? (Language.ofPath path) = some d
  exact_import : Resolve.hasIndexedExtension path = true

/-- What the name of a file promises holds of every path that ends with the name. -/
theorem indexable_append (directory : String) {name : String}
    (h : Language.isSupportedExtension (extensionOf name) = true) :
    Indexable (directory ++ name) := by
  obtain ⟨hext, hwhole, hlanguage⟩ := Language.supported_spec h
  have hread := extensionOf?_append directory hext hwhole
  have hknown : Language.ofPath (directory ++ name) ≠ .unknown := by
    rw [Language.ofPath, hread]
    exact hlanguage
  refine ⟨hknown, Source.Dialect.exists_ofLanguage? hknown, ?_⟩
  rw [Resolve.hasIndexedExtension, hread]
  exact h

namespace Indexable

variable {path : String} (h : Indexable path)
include h

/-- A file with a language fails for its text alone. -/
theorem malformed_of_extractFile {content : String} {f : Extract.Failure}
    (hfails : Extract.extractFile path content = .error f) : f = .malformed path := by
  obtain ⟨d, hd⟩ := h.grammar
  simp only [Extract.extractFile, Extract.parseFile, hd] at hfails
  cases hparse : Source.parse? d content with
  | some p => simp [hparse, Except.map] at hfails
  | none => simpa [hparse, Except.map] using hfails.symm

/-- An import that leads to the path finds it before all that the path may stand for. -/
theorem resolveImport_eq {known : List String} (hknown : path ∈ known)
    {specifier fromFile : String} (hrelative : Resolve.isRelative specifier = true)
    (hjoin : Resolve.join? (Path.directory fromFile) specifier = some path) :
    Resolve.resolveImport known specifier fromFile = some path := by
  rw [Resolve.resolveImport, if_pos hrelative, hjoin, Option.bind_some]
  exact Resolve.find?_candidates_self hknown h.exact_import

end Indexable

/-! Files that are listed -/

theorem Tree.mem_children {t : Tree} {l : Location} {name : String} {e : Entry} :
    (name, e) ∈ t.children l ↔ (l ++ [name], e) ∈ t.entries := by
  unfold Tree.children
  rw [List.mem_filterMap]
  constructor
  · rintro ⟨⟨place, e'⟩, hmem, hchild⟩
    dsimp only at hchild
    split at hchild
    · next last hlast =>
      split at hchild
      · next hbelow =>
        cases hchild
        rw [← beq_iff_eq.mp hbelow, List.dropLast_append_getLast? _ hlast]
        exact hmem
      · cases hchild
    · cases hchild
  · intro hmem
    exact ⟨_, hmem, by simp⟩

/-- A file of the tree under its way from a root, whose name the listing accepts. -/
def Listed (t : Tree) (config : IndexConfig) (root : Location) (x : Files.Source) : Prop :=
  ∃ below name content, (root ++ below ++ [name], Entry.file content) ∈ t.entries ∧
    accepts config (pathOf (below ++ [name])) name content.size = true ∧
    x = ⟨pathOf (below ++ [name]), root ++ below ++ [name], content.size⟩

/-- A walk stays below its root, wherever it has come. -/
theorem listed_of_mem_walkFrom {t : Tree} {config : IndexConfig} {root here below : Location}
    {n : Nat} {above : List Rules} {x : Files.Source} (hhere : here = root ++ below)
    (h : x ∈ walkFrom t config root n above here) : Listed t config root x := by
  induction n generalizing above here below with
  | zero => simp [walkFrom] at h
  | succ n ih =>
    subst hhere
    rw [walkFrom] at h
    obtain ⟨⟨name, entry⟩, hchild, hx⟩ := List.mem_flatMap.mp h
    have hentry := Tree.mem_children.mp hchild
    cases entry with
    | directory =>
      dsimp only at hx
      split at hx
      · simp at hx
      · exact ih (List.append_assoc ..) hx
    | link target => simp at hx
    | file content =>
      have hway : (root ++ below ++ [name]).drop root.length = below ++ [name] := by simp
      dsimp only at hx
      rw [hway] at hx
      split at hx
      · next htaken =>
        rw [Bool.and_eq_true] at htaken
        exact ⟨below, name, content, hentry, htaken.2, List.mem_singleton.mp hx⟩
      · simp at hx

theorem listed_of_mem_walk {t : Tree} {config : IndexConfig} {root : Location} {x : Files.Source}
    (h : x ∈ walk t config root) : Listed t config root x := by
  unfold walk at h
  split at h
  · rw [List.mem_mergeSort] at h
    exact listed_of_mem_walkFrom root.append_nil.symm h
  · simp at h

theorem exists_directory_pathOf (below : Location) (name : String) :
    ∃ directory, pathOf (below ++ [name]) = directory ++ name := by
  by_cases hbelow : below = []
  · exact ⟨"", by simp [hbelow, pathOf]⟩
  · refine ⟨pathOf below ++ "/", ?_⟩
    rw [pathOf, String.intercalate_append_of_ne_nil hbelow (by simp), String.intercalate_singleton]
    rfl

theorem Listed.indexable {t : Tree} {config : IndexConfig} {root : Location} {x : Files.Source}
    (h : Listed t config root x) : Indexable x.relative := by
  obtain ⟨below, name, content, -, haccepts, rfl⟩ := h
  obtain ⟨directory, hpath⟩ := exists_directory_pathOf below name
  have hsupported : Language.isSupportedExtension (extensionOf name) = true := by
    simp only [accepts, Bool.and_eq_true] at haccepts
    exact haccepts.1.1.1
  dsimp only
  rw [hpath]
  exact indexable_append directory hsupported

/-- Every name of the tree is one that a directory can hold. -/
def Tree.Named (t : Tree) : Prop := ∀ e ∈ t.entries, ∀ name ∈ e.1, IsFileName name

/-- The path of a listed file is written without segments to fold away. -/
theorem Listed.isFolded {t : Tree} {config : IndexConfig} {root : Location} {x : Files.Source}
    (h : Listed t config root x) (ht : t.Named) : Resolve.IsFolded x.relative := by
  obtain ⟨below, name, content, hentry, -, rfl⟩ := h
  refine ⟨below ++ [name], fun n hn => ht _ hentry n ?_, rfl⟩
  rw [List.append_assoc]
  exact List.mem_append_right root hn

end Files

/-! Runs over the listed files -/

namespace Store

open Indexing

/-- A run over the listed files fails for their texts alone. -/
theorem malformed_of_index {s s' : Store} {t : Files.Tree} {config : IndexConfig}
    {d : Descriptor} {now : Int} {stats : IndexStats}
    (hok : s.index t config d none now = .ok (stats, s')) :
    ∀ f ∈ stats.failures, f = .malformed f.path := by
  obtain ⟨root, hroot, hdir⟩ := directory_of_index hok
  rw [index_eq s config none now hroot hdir] at hok
  obtain ⟨out, -, heq⟩ := map_eq_ok.mp hok
  obtain ⟨rfl, -⟩ := Prod.mk.inj heq
  intro f hf
  simp only [statsOf, runOf, Pipeline.run_eq] at hf
  obtain ⟨source, hsource, hfails⟩ := Pipeline.mem_failures.mp hf
  have hlisted := (paths_sourcesOf ..).subset (List.mem_map_of_mem hsource)
  obtain ⟨x, hx, hpath⟩ := List.mem_map.mp hlisted
  have hindexable := (Files.listed_of_mem_walk hx).indexable
  rw [hpath] at hindexable
  rw [hindexable.malformed_of_extractFile hfails]
  rfl

end Store

/-- The readings of an extension agree. A path whose name has an indexed extension has the same one
for every reader, a language with a grammar, and an exact import. So it is with every file that a
listing takes: no extractor refuses it for its language, every import that leads to its path finds
it, and in a tree of proper names one leads there from any file. An index run over the listed files
fails for the texts of files alone. -/
theorem listed_readings_agree :
    (∀ path, Language.isSupportedExtension (Files.extensionOf (Path.baseName path)) = true →
        Language.extensionOf? path = some (Files.extensionOf (Path.baseName path)) ∧
          Files.Indexable path) ∧
      (∀ (t : Files.Tree) (config : IndexConfig) (root : Files.Location),
        ∀ x ∈ Files.walk t config root, Files.Indexable x.relative ∧
          (∀ extractor : Extract.Extractor, extractor.Used → ∀ content f,
            (extractor.extractFile x.relative content).1 = .error f →
              f = .malformed x.relative) ∧
          ∀ known, x.relative ∈ known →
            (∀ specifier fromFile, Resolve.isRelative specifier = true →
              Resolve.join? (Path.directory fromFile) specifier = some x.relative →
              Resolve.resolveImport known specifier fromFile = some x.relative) ∧
            (t.Named → ∀ fromFile, Resolve.resolveImport known
              (Resolve.specifierTo fromFile x.relative) fromFile = some x.relative)) ∧
      ∀ (s s' : Store) (t : Files.Tree) (config : IndexConfig) (d : Descriptor) (now : Int)
        (stats : IndexStats), s.index t config d none now = .ok (stats, s') →
          ∀ f ∈ stats.failures, f = .malformed f.path := by
  refine ⟨fun path hpath => ?_, fun t config root x hx => ?_, fun s s' t config d now stats => ?_⟩
  · obtain ⟨directory, hsplit, hbase⟩ := Path.exists_directory path
    obtain ⟨hext, hwhole, -⟩ := Language.supported_spec hpath
    have hread := Files.extensionOf?_append directory hext hwhole
    have hindexable := Files.indexable_append directory hpath
    rw [← hsplit] at hread hindexable
    exact ⟨hread, hindexable⟩
  · have hlisted := Files.listed_of_mem_walk hx
    have hindexable := hlisted.indexable
    refine ⟨hindexable, fun extractor hused content f hfails => ?_, fun known hknown => ?_⟩
    · rw [hused.extractFile_fst] at hfails
      exact hindexable.malformed_of_extractFile hfails
    · refine ⟨fun specifier fromFile => hindexable.resolveImport_eq hknown, fun ht fromFile => ?_⟩
      have hfolded := hlisted.isFolded ht
      exact hindexable.resolveImport_eq hknown (Resolve.isRelative_specifierTo fromFile hfolded)
        (Resolve.join?_specifierTo fromFile hfolded)
  · exact Store.malformed_of_index

/-- A directory with a full stop in its name, a file whose name starts with two, one whose name is
an extension alone, and a text that does not parse. -/
def dottedTree : Files.Tree where
  base := "/w"
  entries := [(["lib.d"], .directory), (["lib.d", "..mjs"], .file (.text "function (")),
    (["lib.d", ".ts"], .file (.text "")), (["lib.d", "ts"], .file (.text ""))]

theorem listed_readings_agree_dotted :
    Language.isSupportedExtension (Files.extensionOf (Path.baseName "lib.d/..mjs")) = true ∧
      Language.extensionOf? "lib.d/..mjs" = some "mjs" ∧ dottedTree.Named ∧
      (∃ x ∈ Files.walk dottedTree {} [], x.relative = "lib.d/..mjs" ∧
        Resolve.resolveImport ["lib.d/..mjs.ts", "lib.d/..mjs"] "../lib.d/..mjs" "src/main.ts" =
          some "lib.d/..mjs") ∧
      ∃ stats s', (Store.empty 0).index dottedTree {} (.ofFullName "r" "") none 0 =
          .ok (stats, s') ∧ ∀ f ∈ stats.failures, f = .malformed f.path := by
  obtain ⟨hreadings, hwalk, hindex⟩ := listed_readings_agree
  have hsupported :
      Language.isSupportedExtension (Files.extensionOf (Path.baseName "lib.d/..mjs")) = true := by
    decide
  have hnames : ∀ name ∈ dottedTree.entries.flatMap Prod.fst,
      Files.Tree.IsPlain name ∧ '/' ∉ name.toList := by
    unfold Files.Tree.IsPlain
    decide
  have hnamed : dottedTree.Named := by
    intro e he name hname
    obtain ⟨hplain, hwhole⟩ := hnames name (List.mem_flatMap.mpr ⟨e, he, hname⟩)
    exact ⟨hplain, hwhole⟩
  have hwalked : (Files.walk dottedTree {} []).map Files.Source.relative = ["lib.d/..mjs"] := by
    decide +kernel
  obtain ⟨x, hx, hpath⟩ := List.map_eq_singleton_iff.mp hwalked
  have hmem : x ∈ Files.walk dottedTree {} [] := hx ▸ List.mem_singleton_self x
  have hspecifier : Resolve.specifierTo "src/main.ts" x.relative = "../lib.d/..mjs" := by
    rw [hpath]
    decide
  have hfound := (hwalk dottedTree {} [] x hmem).2.2 ["lib.d/..mjs.ts", "lib.d/..mjs"]
    (by rw [hpath]; decide)
  obtain ⟨i⟩ : Nonempty (Store.IndexRun (.empty 0) dottedTree {} (.ofFullName "r" "") [] none 0) :=
    (Reachable.empty 0).sound.indexRun rfl (by decide) (by
      rw [Indexing.listing, Option.getD_none, hwalked]
      exact List.nodup_singleton _)
  refine ⟨hsupported, (hreadings _ hsupported).1, hnamed, ⟨x, hmem, hpath, ?_⟩, _, _, i.index_eq,
    hindex _ _ _ _ _ _ _ i.index_eq⟩
  rw [← hspecifier, hfound.2 hnamed, hpath]

end CodeIndex
