import CodeIndex.Proofs.Files.Directory
import CodeIndex.Proofs.Graph.Links
import CodeIndex.Proofs.Store.Replacement

/-!
When the key of an edge tells it from other edges. The parts of a key are joined with bars that are
not escaped, so two edges can share a key where a path holds a bar, and then one of them is dropped.
Without bars the parts can be read off a key: the kind and the files first, then each symbol, whose
line follows the last at sign and whose path is the file of its side or ends at the first hash. Then
neither a build nor a store drops an edge for another one.
-/
namespace CodeIndex

namespace Edge

/-- No text of an edge holds a bar, and no file end is an empty path. -/
structure Unbarred (e : Edge) : Prop where
  files : ∀ path, e.fromFile = some path ∨ e.toFile = some path → path ≠ "" ∧ '|' ∉ path.toList
  symbols : ∀ k, e.fromSymbol = some k ∨ e.toSymbol = some k →
    '|' ∉ k.filePath.toList ∧ '|' ∉ k.name.toList

/-- The symbol ends stand in the file ends. -/
structure Located (e : Edge) : Prop where
  source : ∀ k, e.fromSymbol = some k → e.fromFile = some k.filePath
  target : ∀ k, e.toSymbol = some k → e.toFile = some k.filePath

/-- The path of no symbol end holds the mark that divides paths from names. -/
def Unmarked (e : Edge) : Prop :=
  ∀ k, e.fromSymbol = some k ∨ e.toSymbol = some k → '#' ∉ k.filePath.toList

end Edge

namespace Graph

open Store (firstsBy)

/-! Reading a key from the front -/

/-- What stands before the first separator can be read off a text. -/
theorem append_sep_inj {sep : Char} {a b rest rest' : List Char} (ha : sep ∉ a) (hb : sep ∉ b)
    (h : a ++ sep :: rest = b ++ sep :: rest') : a = b ∧ rest = rest' := by
  have hcut := congrArg (Text.Pieces.cutChars sep) h
  rw [Text.Pieces.cutChars_append ha, Text.Pieces.cutChars_append hb] at hcut
  exact Prod.mk.inj (Option.some.inj hcut)

/-- What stands after the last separator can be read off a text. -/
theorem append_sep_inj_right {sep : Char} {a b rest rest' : List Char} (ha : sep ∉ a)
    (hb : sep ∉ b) (h : rest ++ sep :: a = rest' ++ sep :: b) : rest = rest' ∧ a = b := by
  have hreverse := congrArg List.reverse h
  rw [List.reverse_append, List.reverse_append, List.reverse_cons, List.reverse_cons,
    List.append_assoc, List.append_assoc] at hreverse
  obtain ⟨hlast, hrest⟩ := append_sep_inj (by simpa using ha) (by simpa using hb) hreverse
  exact ⟨List.reverse_inj.mp hrest, List.reverse_inj.mp hlast⟩

theorem key_toList (e : Edge) :
    e.key.toList = e.kind.name.toList ++ '|' :: ((e.fromFile.getD "").toList ++ '|' ::
      ((e.toFile.getD "").toList ++ '|' :: ((Edge.symbolText e.fromSymbol).toList ++ '|' ::
        (Edge.symbolText e.toSymbol).toList))) := by
  simp [Edge.key]

/-- Where no file end has a bar, the kind and the files can be read off a key. -/
theorem key_front {e e' : Edge} (hfrom : '|' ∉ (e.fromFile.getD "").toList)
    (hto : '|' ∉ (e.toFile.getD "").toList) (hfrom' : '|' ∉ (e'.fromFile.getD "").toList)
    (hto' : '|' ∉ (e'.toFile.getD "").toList) (h : e.key = e'.key) :
    e.kind = e'.kind ∧ e.fromFile.getD "" = e'.fromFile.getD "" ∧
      e.toFile.getD "" = e'.toFile.getD "" ∧
      (Edge.symbolText e.fromSymbol).toList ++ '|' :: (Edge.symbolText e.toSymbol).toList =
        (Edge.symbolText e'.fromSymbol).toList ++ '|' :: (Edge.symbolText e'.toSymbol).toList := by
  have hkind : ∀ k : EdgeKind, '|' ∉ k.name.toList := by
    intro k
    cases k <;> decide
  have hchars := congrArg String.toList h
  rw [key_toList, key_toList] at hchars
  obtain ⟨hname, hchars⟩ := append_sep_inj (hkind _) (hkind _) hchars
  obtain ⟨hsource, hchars⟩ := append_sep_inj hfrom hfrom' hchars
  obtain ⟨htarget, hchars⟩ := append_sep_inj hto hto' hchars
  have hsame : e.kind = e'.kind := by
    revert hname
    cases e.kind <;> cases e'.kind <;> decide
  exact ⟨hsame, String.toList_inj.mp hsource, String.toList_inj.mp htarget, hchars⟩

/-! Imports -/

/-- Two edges whose paths have no bars and whose keys are equal import the same file. -/
theorem importPair?_eq_of_key {e e' : Edge} {source target source' target' : String}
    (hfrom : e.fromFile = some source) (hto : e.toFile = some target)
    (hfrom' : e'.fromFile = some source') (hto' : e'.toFile = some target')
    (hbars : ∀ path ∈ [source, target, source', target'], '|' ∉ path.toList)
    (h : e.key = e'.key) : e.importPair? = e'.importPair? := by
  obtain ⟨hkind, hsource, htarget, -⟩ := key_front
    (by simpa [hfrom] using hbars source (by simp)) (by simpa [hto] using hbars target (by simp))
    (by simpa [hfrom'] using hbars source' (by simp))
    (by simpa [hto'] using hbars target' (by simp)) h
  simp only [hfrom, hto, hfrom', hto', Option.getD_some] at hsource htarget
  rw [Edge.importPair?, Edge.importPair?, hkind, hfrom, hto, hfrom', hto', hsource, htarget]

/-- Where no path has a bar, dropping repeated keys drops no import. -/
theorem mem_importPairs_firsts {edges : List Edge}
    (hends : ∀ e ∈ edges, ∃ source target, e.fromFile = some source ∧ e.toFile = some target ∧
      '|' ∉ source.toList ∧ '|' ∉ target.toList) {p : String × String} :
    p ∈ (firstsBy Edge.key [] edges).filterMap Edge.importPair? ↔
      p ∈ edges.filterMap Edge.importPair? := by
  simp only [List.mem_filterMap]
  constructor
  · rintro ⟨e, he, hpair⟩
    exact ⟨e, Store.mem_of_mem_firstsBy he, hpair⟩
  · rintro ⟨e, he, hpair⟩
    obtain ⟨first, hfirst, hsame⟩ :=
      List.mem_map.mp (Store.mem_map_firstsBy.mpr (List.mem_map_of_mem (f := Edge.key) he))
    obtain ⟨source, target, hfrom, hto, hsource, htarget⟩ := hends e he
    obtain ⟨source', target', hfrom', hto', hsource', htarget'⟩ :=
      hends first (Store.mem_of_mem_firstsBy hfirst)
    refine ⟨first, hfirst, ?_⟩
    rw [← hpair]
    refine importPair?_eq_of_key hfrom' hto' hfrom hto ?_ hsame
    simp [hsource, htarget, hsource', htarget']

/-! Symbol ends -/

theorem symbolText_toList (k : SymbolKey) :
    (Edge.symbolText (some k)).toList =
      k.filePath.toList ++ '#' :: (k.name.toList ++ '@' :: (toString k.lineStart).toList) := by
  simp [Edge.symbolText]

theorem not_mem_line {c : Char} (hc : c.isDigit = false) (n : Nat) : c ∉ (toString n).toList := by
  intro hmem
  rw [Nat.toString_eq_repr, Nat.toList_repr] at hmem
  rw [Nat.isDigit_of_mem_toDigits (by omega) (by omega) hmem] at hc
  exact Bool.noConfusion hc

theorem line_inj {m n : Nat} (h : (toString m).toList = (toString n).toList) : m = n := by
  have hvalue := congrArg (Nat.ofDigitChars 10 · 0) h
  simpa only [Nat.toString_eq_repr, Nat.toList_repr, Nat.ofDigitChars_ten_toDigits] using hvalue

theorem bar_not_mem_symbolText {end? : Option SymbolKey}
    (h : ∀ k, end? = some k → '|' ∉ k.filePath.toList ∧ '|' ∉ k.name.toList) :
    '|' ∉ (Edge.symbolText end?).toList := by
  cases end? with
  | none => simp [Edge.symbolText]
  | some k =>
    obtain ⟨hpath, hname⟩ := h k rfl
    have hline : '|' ∉ (toString k.lineStart).toList := not_mem_line (by decide) _
    rw [symbolText_toList]
    simp only [List.mem_append, List.mem_cons, not_or]
    exact ⟨hpath, by decide, hname, by decide, hline⟩

/-- The text of a symbol end tells it from others whose path is the same or ends at the mark too. -/
theorem symbolText_inj {a b : Option SymbolKey}
    (hpath : ∀ k k', a = some k → b = some k' →
      k.filePath = k'.filePath ∨ '#' ∉ k.filePath.toList ∧ '#' ∉ k'.filePath.toList)
    (h : (Edge.symbolText a).toList = (Edge.symbolText b).toList) : a = b := by
  cases a with
  | none =>
    cases b with
    | none => rfl
    | some k' => simp [Edge.symbolText] at h
  | some k =>
    cases b with
    | none => simp [Edge.symbolText] at h
    | some k' =>
      rw [symbolText_toList, symbolText_toList, ← List.cons_append, ← List.append_assoc,
        ← List.cons_append, ← List.append_assoc] at h
      obtain ⟨hfront, hline⟩ := append_sep_inj_right (not_mem_line (by decide) _)
        (not_mem_line (by decide) _) h
      have hparts : k.filePath = k'.filePath ∧ k.name = k'.name := by
        rcases hpath k k' rfl rfl with hsame | ⟨hmark, hmark'⟩
        · rw [hsame, List.append_cancel_left_eq, List.cons.injEq] at hfront
          exact ⟨hsame, String.toList_inj.mp hfront.2⟩
        · obtain ⟨hfile, hname⟩ := append_sep_inj hmark hmark' hfront
          exact ⟨String.toList_inj.mp hfile, String.toList_inj.mp hname⟩
      have hstart : k.lineStart = k'.lineStart := line_inj hline
      cases k
      cases k'
      simp_all

/-! Whole keys -/

theorem fileEnd_inj {a b : Option String} (ha : ∀ path, a = some path → path ≠ "")
    (hb : ∀ path, b = some path → path ≠ "") (h : a.getD "" = b.getD "") : a = b := by
  cases a with
  | none =>
    cases b with
    | none => rfl
    | some path => exact absurd h.symm (hb path rfl)
  | some path =>
    cases b with
    | none => exact absurd h (ha path rfl)
    | some path' => exact congrArg some h

theorem bar_not_mem_fileEnd {a : Option String} (h : ∀ path, a = some path → '|' ∉ path.toList) :
    '|' ∉ (a.getD "").toList := by
  cases a with
  | none => simp
  | some path => exact h path rfl

/-- Without bars, edges of one repository with the same key are equal if the paths of their symbols
are known from their files or can be told from the names. -/
theorem eq_of_key_eq {e e' : Edge} (howner : e.repositoryId = e'.repositoryId)
    (hbars : e.Unbarred) (hbars' : e'.Unbarred)
    (hends : e.Located ∧ e'.Located ∨ e.Unmarked ∧ e'.Unmarked) (h : e.key = e'.key) :
    e = e' := by
  obtain ⟨hkind, hfrom, hto, hsymbols⟩ := key_front
    (bar_not_mem_fileEnd fun path hp => (hbars.files path (.inl hp)).2)
    (bar_not_mem_fileEnd fun path hp => (hbars.files path (.inr hp)).2)
    (bar_not_mem_fileEnd fun path hp => (hbars'.files path (.inl hp)).2)
    (bar_not_mem_fileEnd fun path hp => (hbars'.files path (.inr hp)).2) h
  have hfromFile : e.fromFile = e'.fromFile :=
    fileEnd_inj (fun path hp => (hbars.files path (.inl hp)).1)
      (fun path hp => (hbars'.files path (.inl hp)).1) hfrom
  have htoFile : e.toFile = e'.toFile :=
    fileEnd_inj (fun path hp => (hbars.files path (.inr hp)).1)
      (fun path hp => (hbars'.files path (.inr hp)).1) hto
  obtain ⟨hfromText, htoText⟩ := append_sep_inj
    (bar_not_mem_symbolText fun k hk => hbars.symbols k (.inl hk))
    (bar_not_mem_symbolText fun k hk => hbars'.symbols k (.inl hk)) hsymbols
  have hfromSymbol : e.fromSymbol = e'.fromSymbol := by
    refine symbolText_inj (fun k k' hk hk' => ?_) hfromText
    rcases hends with ⟨hlocated, hlocated'⟩ | ⟨hmarks, hmarks'⟩
    · rw [hlocated.source k hk, hlocated'.source k' hk'] at hfromFile
      exact .inl (Option.some.inj hfromFile)
    · exact .inr ⟨hmarks k (.inl hk), hmarks' k' (.inl hk')⟩
  have htoSymbol : e.toSymbol = e'.toSymbol := by
    refine symbolText_inj (fun k k' hk hk' => ?_) htoText
    rcases hends with ⟨hlocated, hlocated'⟩ | ⟨hmarks, hmarks'⟩
    · rw [hlocated.target k hk, hlocated'.target k' hk'] at htoFile
      exact .inl (Option.some.inj htoFile)
    · exact .inr ⟨hmarks k (.inr hk), hmarks' k' (.inr hk')⟩
  cases e
  cases e'
  simp_all

/-- Where keys tell edges apart, a build drops only repeated edges. -/
theorem distinctEdges_eq_eraseDups {edges : List Edge}
    (h : ∀ e ∈ edges, ∀ e' ∈ edges, e.key = e'.key → e = e') :
    distinctEdges [] edges = edges.eraseDups := by
  rw [distinctEdges_eq_firstsBy fun _ => Iff.rfl, Store.firstsBy_eq_eraseDups h]

/-! Edges of a build -/

variable {known : List String} {symbols : List Symbol} {repositoryId : String} {r : Reference}

/-- The edges of a build have their symbols in their files. -/
theorem Requires.located {e : Edge} (h : Requires known symbols repositoryId r e) : e.Located := by
  rcases h with himports | huses
  · exact ⟨fun _ hk => by simp [Edge.fileImport] at hk, fun _ hk => by simp [Edge.fileImport] at hk⟩
  · refine ⟨fun k hk => ?_, fun k hk => ?_⟩
    · obtain ⟨enclosing, -, rfl⟩ := Option.map_eq_some_iff.mp hk
      rfl
    · obtain rfl := Option.some.inj hk
      rfl

theorem Requires.repositoryId_eq {e : Edge} (h : Requires known symbols repositoryId r e) :
    e.repositoryId = repositoryId := by
  rcases h with himports | huses
  · rfl
  · rfl

/-- Where no path and no name has a bar, nor has any edge that they require. -/
theorem Requires.unbarred {e : Edge} (h : Requires known symbols repositoryId r e)
    (hknown : ∀ path ∈ known, path ≠ "" ∧ '|' ∉ path.toList)
    (hsymbols : ∀ s ∈ symbols, s.filePath ∈ known ∧ '|' ∉ s.name.toList)
    (henclosing : ∀ x, r.metadata.enclosing = some x → '|' ∉ x.name.toList) : e.Unbarred := by
  rcases h with himports | huses
  · constructor
    · rintro path (hpath | hpath)
      · exact Option.some.inj hpath ▸ hknown _ himports.file
      · exact Option.some.inj hpath ▸ hknown _ himports.target_mem
    · rintro k (hk | hk) <;> simp [Edge.fileImport] at hk
  · have hfile := hknown _ huses.isUse.1
    obtain ⟨htarget, hname⟩ := hsymbols _ huses.mem
    constructor
    · rintro path (hpath | hpath)
      · exact Option.some.inj hpath ▸ hfile
      · exact Option.some.inj hpath ▸ hknown _ htarget
    · rintro k (hk | hk)
      · obtain ⟨enclosing, hfound, rfl⟩ := Option.map_eq_some_iff.mp hk
        exact ⟨hfile.2, henclosing enclosing hfound⟩
      · obtain rfl := Option.some.inj hk
        exact ⟨(hknown _ htarget).2, hname⟩

/-- Where no path and no name has a bar, a build has every edge that its references require. -/
theorem mem_build_of_unbarred {references : List Reference}
    (hknown : ∀ path ∈ known, path ≠ "" ∧ '|' ∉ path.toList)
    (hsymbols : ∀ s ∈ symbols, s.filePath ∈ known ∧ '|' ∉ s.name.toList)
    (henclosing : ∀ r ∈ references, ∀ x, r.metadata.enclosing = some x → '|' ∉ x.name.toList)
    {e : Edge} :
    e ∈ (build known symbols references repositoryId).edges ↔
      ∃ r ∈ references, Requires known symbols repositoryId r e := by
  have hkeys : ∀ e ∈ edgesOf known symbols repositoryId references,
      ∀ e' ∈ edgesOf known symbols repositoryId references, e.key = e'.key → e = e' := by
    intro e he e' he' hkey
    obtain ⟨r, hr, hrequires⟩ := mem_edgesOf.mp he
    obtain ⟨r', hr', hrequires'⟩ := mem_edgesOf.mp he'
    exact eq_of_key_eq (hrequires.repositoryId_eq.trans hrequires'.repositoryId_eq.symm)
      (hrequires.unbarred hknown hsymbols (henclosing r hr))
      (hrequires'.unbarred hknown hsymbols (henclosing r' hr'))
      (.inl ⟨hrequires.located, hrequires'.located⟩) hkey
  rw [build_edges, Store.firstsBy_eq_eraseDups hkeys, List.mem_eraseDups, mem_edgesOf]

/-! Edges that are stored -/

/-- Edges of one repository that differ have different keys, if no bar stands in them and the paths
of their symbols are those of their files or have no hash. So a build drops only repeated edges, and
a run that is stored has a row for every different edge. -/
theorem unbarred_edges_kept {owner : Id} {edges : List Edge}
    (howner : ∀ e ∈ edges, e.repositoryId = owner.text) (hbars : ∀ e ∈ edges, e.Unbarred)
    (hends : (∀ e ∈ edges, e.Located) ∨ ∀ e ∈ edges, e.Unmarked) :
    (∀ e ∈ edges, ∀ e' ∈ edges, e ≠ e' → e.key ≠ e'.key) ∧
      distinctEdges [] edges = edges.eraseDups ∧
      ∀ s s' : Store, Reachable s → ∀ (run : Store.Run) (now : Int) (counts : Store.RunCounts),
        run.edges = edges → s.storeRun owner now run = .ok (counts, s') →
        (s'.edges.filter fun row => row.repositoryId == owner).map
            (fun row => (row.key, s'.edgeOf owner.text row)) =
          edges.eraseDups.map fun e => (e.key, run.storedEdge owner.text e) := by
  have hkeys : ∀ e ∈ edges, ∀ e' ∈ edges, e.key = e'.key → e = e' := by
    intro e he e' he' hkey
    refine eq_of_key_eq ((howner e he).trans (howner e' he').symm) (hbars e he) (hbars e' he') ?_
      hkey
    exact hends.imp (fun h => ⟨h e he, h e' he'⟩) fun h => ⟨h e he, h e' he'⟩
  refine ⟨fun e he e' he' => mt (hkeys e he e' he'), distinctEdges_eq_eraseDups hkeys, ?_⟩
  intro s s' hs run now counts hedges hok
  obtain ⟨o⟩ := hs.sound.storeRun_outcome hok
  rw [o.edges_read, hedges, Store.firstsBy_eq_eraseDups hkeys]

/-- An import of a function, a call of it from within another one, and two calls from outside, which
give the same edge. -/
def callsOfImport : List Reference :=
  [{ filePath := "a.ts", name := "g", kind := .import, line := 1, column := 9,
     targetFilePath := some "b#.ts" },
    { filePath := "a.ts", name := "g", kind := .call, line := 3, column := 2,
      metadata := { enclosing := some ⟨"f", 2⟩ } },
    { filePath := "a.ts", name := "g", kind := .call, line := 5, column := 0 },
    { filePath := "a.ts", name := "g", kind := .call, line := 6, column := 0 }]

/-- A run with the edges of these references. -/
def importRun (repositoryId : String) : Store.Run where
  files := [⟨"a.ts", "", .typescript, 0, "", 0⟩, ⟨"b#.ts", "", .typescript, 0, "", 0⟩]
  symbols := [⟨"a.ts", "f", .function, 2, 4, none, none, true⟩,
    ⟨"b#.ts", "g", .function, 1, 1, none, none, true⟩]
  references := callsOfImport
  edges := edgesOf ["a.ts", "b#.ts"] [⟨"a.ts", "f", .function, 2, 4, none, none, true⟩,
    ⟨"b#.ts", "g", .function, 1, 1, none, none, true⟩] repositoryId callsOfImport

theorem unbarred_edges_kept_importRun : ∃ s s' : Store, Reachable s ∧
    (∃ counts, s.storeRun (.made 0 0) 1 (importRun "0-0") = .ok (counts, s')) ∧
    distinctEdges [] (importRun "0-0").edges = (importRun "0-0").edges.take 3 ∧
    (s'.edges.filter fun row => row.repositoryId == .made 0 0).map (s'.edgeOf "0-0") =
      (importRun "0-0").edges.take 3 := by
  obtain ⟨s, h, ⟨counts, s'⟩, hok⟩ : ∃ s : Store, Reachable s ∧
      ∃ out, s.storeRun (.made 0 0) 1 (importRun "0-0") = .ok out :=
    ⟨_, .step (.upsertRepository (.ofFullName "r" "")) (.empty 0) trivial rfl, _, rfl⟩
  have hid : Id.text (.made 0 0) = "0-0" := by decide
  have hrequired : ∀ e ∈ (importRun "0-0").edges,
      e.repositoryId = "0-0" ∧ e.Unbarred ∧ e.Located := by
    intro e he
    obtain ⟨r, hr, hrequires⟩ := mem_edgesOf.mp he
    have henclosing : ∀ r ∈ callsOfImport, ∀ x ∈ r.metadata.enclosing, '|' ∉ x.name.toList := by
      decide
    exact ⟨hrequires.repositoryId_eq,
      hrequires.unbarred (by decide) (by decide) (henclosing r hr), hrequires.located⟩
  obtain ⟨-, hdistinct, hstored⟩ := @unbarred_edges_kept (.made 0 0) (importRun "0-0").edges
    (fun e he => (hrequired e he).1.trans hid.symm) (fun e he => (hrequired e he).2.1)
    (.inl fun e he => (hrequired e he).2.2)
  have hfirst : (importRun "0-0").edges.eraseDups = (importRun "0-0").edges.take 3 := by decide
  have hkept : ((importRun "0-0").edges.take 3).map ((importRun "0-0").storedEdge "0-0") =
      (importRun "0-0").edges.take 3 := by decide
  have hrows := congrArg (List.map Prod.snd) (hstored s s' h (importRun "0-0") 1 counts rfl hok)
  rw [List.map_map, List.map_map, hfirst] at hrows
  exact ⟨s, s', h, ⟨counts, hok⟩, hdistinct.trans hfirst, hrows.trans hkept⟩

/-- With bars in paths the imports of two pairs of files share a key, and a build drops the second
of them. -/
theorem imports_share_key :
    ∃ (known : List String) (r r' : Reference) (e e' : Edge), "" ∉ known ∧
      Requires known [] "1" r e ∧ Requires known [] "1" r' e' ∧ e ≠ e' ∧ e.key = e'.key ∧
      (build known [] [r, r'] "1").edges = [e] := by
  refine ⟨["a.ts", "a.ts|b.ts", "b.ts|c.ts", "c.ts"],
    { filePath := "a.ts", name := "x", kind := .import, line := 1, column := 9,
      targetFilePath := some "b.ts|c.ts" },
    { filePath := "a.ts|b.ts", name := "y", kind := .import, line := 1, column := 9,
      targetFilePath := some "c.ts" },
    _, _, by decide, .fileImport ⟨by decide, rfl, rfl, by decide⟩,
    .fileImport ⟨by decide, rfl, rfl, by decide⟩, by decide, by decide, by decide⟩

end Graph

end CodeIndex
