import Amalgam.Join.Basic
import Amalgam.Proofs.FileSystem.Access
import Amalgam.Proofs.Selection.Runs
import Mathlib.Data.List.Forall2

/-!
# Joins of single sources

A join takes one source after the other, each in a run of its own, and stops at
the first that fails. So it is known by the sources that are processed
(`Processed`), and each of these by its own file:

* `processFile_eq_ok_iff`, `processFile_eq_error_iff`: what a source gives,
  from the content of its file;
* `joinSources_of_processed`, `joinSources_of_failed`: what a join gives if all
  sources are processed, and if one of them fails;
* `result_joinSources_eq_ok_iff`: when a join gives a document, and which one;
* `joinSources_first_failure`: the first source that fails decides, and no file
  behind it matters.
-/

namespace Amalgam

/-- What an assembler holds once it has received the given texts with their
paths, in order. -/
def Assembler.receive {σ : Type} (assembler : Assembler σ) (s : σ) (sources : List (Path × String)) : σ :=
  sources.foldl (fun s source => assembler.add s source.1 source.2) s

/-- The document that an assembler makes of the given texts with their
paths. -/
def Assembler.document {σ : Type} (assembler : Assembler σ) (sources : List (Path × String)) : String :=
  assembler.finish (assembler.receive assembler.start sources)

namespace Join

variable {σ : Type} {fs : FileSystem} {symbols : Symbols} {strict : Bool} {assembler : Assembler σ}
  {path bad : Path} {paths done later : List Path} {text : String} {texts : List String}
  {failure : Failure} {j : Joined σ}

/-! ## Single sources -/

/-- A source gives the text that the run over the lines of its file gives. -/
theorem processFile_eq_ok_iff : (processFile fs symbols strict path).result = .ok text ↔
    ∃ source, fs.readText path = .ok source ∧
      (Selection.select strict symbols (Text.lines source)).text = .ok text := by
  unfold processFile
  cases fs.readText path with
  | error fault => simp
  | ok source =>
    cases h : (Selection.select strict symbols (Text.lines source)).text <;> simp [Except.mapError, h]

/-- A source fails if its file cannot be read as text, or if the run over its
lines fails. Either way the failure names it. -/
theorem processFile_eq_error_iff : (processFile fs symbols strict path).result = .error failure ↔
    (∃ fault, fs.readText path = .error fault ∧ failure = .io path fault) ∨
    ∃ source reason, fs.readText path = .ok source ∧
      (Selection.select strict symbols (Text.lines source)).failure? = some reason ∧
      failure = .rejected path reason := by
  unfold processFile
  cases fs.readText path with
  | error fault => simp [eq_comm]
  | ok source =>
    simp only [reduceCtorEq, false_and, exists_false, false_or, Except.ok.injEq,
      ← Selection.Run.text_eq_error_iff]
    cases h : (Selection.select strict symbols (Text.lines source)).text <;>
      simp [Except.mapError, h, eq_comm]

/-- Only the content of its own file matters to a source. -/
theorem processFile_congr {fs' : FileSystem} (h : fs'.readText path = fs.readText path) :
    processFile fs' symbols strict path = processFile fs symbols strict path := by
  simp only [processFile, h]

/-- The sources give the texts, each the one at its place. -/
def Processed (fs : FileSystem) (symbols : Symbols) (strict : Bool) (paths : List Path)
    (texts : List String) : Prop :=
  List.Forall₂ (fun path text => (processFile fs symbols strict path).result = .ok text) paths texts

theorem Processed.congr {fs' : FileSystem} (h : ∀ path ∈ paths, fs'.readText path = fs.readText path)
    (hp : Processed fs symbols strict paths texts) : Processed fs' symbols strict paths texts := by
  induction hp with
  | nil => exact .nil
  | @cons path text paths texts hfirst _ ih =>
    refine .cons ?_ (ih fun q hq => h q (List.mem_cons_of_mem _ hq))
    rw [processFile_congr (h path (List.mem_cons_self ..)), hfirst]

theorem processed_iff_map_eq : Processed fs symbols strict paths texts ↔
    paths.map (fun path => (processFile fs symbols strict path).result) = texts.map .ok := by
  rw [← List.forall₂_eq_eq_eq, List.forall₂_map_left_iff, List.forall₂_map_right_iff]
  rfl

theorem Processed.exists_text (hp : Processed fs symbols strict paths texts) (hm : path ∈ paths) :
    ∃ text ∈ texts, (processFile fs symbols strict path).result = .ok text := by
  have hresult : (processFile fs symbols strict path).result ∈ texts.map .ok :=
    processed_iff_map_eq.mp hp ▸ List.mem_map_of_mem hm
  obtain ⟨text, htext, heq⟩ := List.mem_map.mp hresult
  exact ⟨text, htext, heq.symm⟩

theorem Processed.exists_path (hp : Processed fs symbols strict paths texts) (hm : text ∈ texts) :
    ∃ path ∈ paths, (processFile fs symbols strict path).result = .ok text := by
  have hresult : .ok text ∈ paths.map fun path => (processFile fs symbols strict path).result :=
    processed_iff_map_eq.mp hp ▸ List.mem_map_of_mem hm
  exact List.mem_map.mp hresult

/-- The files of sources that are processed can be read. -/
theorem Processed.readable (hp : Processed fs symbols strict paths texts) (hm : path ∈ paths) :
    (fs.readText path).isOk := by
  obtain ⟨text, -, hresult⟩ := hp.exists_text hm
  obtain ⟨source, hread, -⟩ := processFile_eq_ok_iff.mp hresult
  rw [hread]
  rfl

/-! ## One source after the other -/

theorem feed_of_failure (h : j.failure? = some failure) :
    j.feed fs symbols strict assembler path = j := by
  simp only [Joined.feed, h]

theorem feed_of_ok (assembler : Assembler σ) (h : j.failure? = none)
    (hp : (processFile fs symbols strict path).result = .ok text) :
    (j.feed fs symbols strict assembler path).failure? = none ∧
      (j.feed fs symbols strict assembler path).received = assembler.add j.received path text := by
  simp only [Joined.feed, h, hp, and_self]

theorem feed_of_error (assembler : Assembler σ) (h : j.failure? = none)
    (hp : (processFile fs symbols strict path).result = .error failure) :
    (j.feed fs symbols strict assembler path).failure? = some failure ∧
      (j.feed fs symbols strict assembler path).received = j.received := by
  simp only [Joined.feed, h, hp, and_self]

theorem foldl_feed_of_failure (h : j.failure? = some failure) :
    paths.foldl (Joined.feed fs symbols strict assembler) j = j := by
  induction paths with
  | nil => rfl
  | cons path paths ih => rw [List.foldl_cons, feed_of_failure h, ih]

/-- Sources that are processed are all handed to the assembler. -/
theorem foldl_feed_of_processed (assembler : Assembler σ) (h : j.failure? = none)
    (hp : Processed fs symbols strict paths texts) :
    (paths.foldl (Joined.feed fs symbols strict assembler) j).failure? = none ∧
      (paths.foldl (Joined.feed fs symbols strict assembler) j).received =
        assembler.receive j.received (paths.zip texts) := by
  induction hp generalizing j with
  | nil => exact ⟨h, rfl⟩
  | @cons path text paths texts hfirst _ ih =>
    obtain ⟨hf, hr⟩ := feed_of_ok assembler h hfirst
    rw [List.foldl_cons, List.zip_cons_cons]
    obtain ⟨hf', hr'⟩ := ih hf
    exact ⟨hf', hr'.trans (by rw [hr]; rfl)⟩

/-! ## Whole joins -/

theorem joinSources_of_processed (assembler : Assembler σ)
    (hp : Processed fs symbols strict paths texts) :
    (joinSources fs symbols strict assembler paths).failure? = none ∧
      (joinSources fs symbols strict assembler paths).received =
        assembler.receive assembler.start (paths.zip texts) :=
  foldl_feed_of_processed assembler rfl hp

theorem joinSources_of_failed (assembler : Assembler σ) (hp : Processed fs symbols strict done texts)
    (hbad : (processFile fs symbols strict bad).result = .error failure) (later : List Path) :
    (joinSources fs symbols strict assembler (done ++ bad :: later)).failure? = some failure ∧
      (joinSources fs symbols strict assembler (done ++ bad :: later)).received =
        assembler.receive assembler.start (done.zip texts) := by
  obtain ⟨hf, hr⟩ := joinSources_of_processed assembler hp
  obtain ⟨hf', hr'⟩ := feed_of_error assembler hf hbad
  rw [joinSources, List.foldl_append, List.foldl_cons]
  change (later.foldl _ ((joinSources fs symbols strict assembler done).feed fs symbols strict assembler
    bad)).failure? = _ ∧ (later.foldl _ ((joinSources fs symbols strict assembler done).feed fs symbols
    strict assembler bad)).received = _
  rw [foldl_feed_of_failure hf']
  exact ⟨hf', hr'.trans hr⟩

/-- The sources up to the first that fails, if one does. -/
theorem exists_processed_prefix (fs : FileSystem) (symbols : Symbols) (strict : Bool) (paths : List Path) :
    ∃ done texts, Processed fs symbols strict done texts ∧
      (paths = done ∨ ∃ bad later failure, paths = done ++ bad :: later ∧
        (processFile fs symbols strict bad).result = .error failure) := by
  induction paths with
  | nil => exact ⟨[], [], .nil, .inl rfl⟩
  | cons path paths ih =>
    cases hp : (processFile fs symbols strict path).result with
    | error failure => exact ⟨[], [], .nil, .inr ⟨path, paths, failure, rfl, hp⟩⟩
    | ok text =>
      obtain ⟨done, texts, hdone, hrest⟩ := ih
      refine ⟨path :: done, text :: texts, .cons hp hdone, ?_⟩
      rcases hrest with rfl | ⟨bad, later, failure, rfl, hbad⟩
      · exact .inl rfl
      · exact .inr ⟨bad, later, failure, rfl, hbad⟩

/-- Sources that give a text each are processed. -/
theorem exists_processed
    (h : ∀ path ∈ paths, ∃ text, (processFile fs symbols strict path).result = .ok text) :
    ∃ texts, Processed fs symbols strict paths texts := by
  obtain ⟨done, texts, hdone, rfl | ⟨bad, later, failure, rfl, hbad⟩⟩ :=
    exists_processed_prefix fs symbols strict paths
  · exact ⟨texts, hdone⟩
  · obtain ⟨text, htext⟩ := h bad (by simp)
    rw [hbad] at htext
    cases htext

theorem result_of_goesOn (h : j.failure? = none) :
    j.result assembler = .ok (assembler.finish j.received) := by
  simp only [Joined.result, h]

theorem result_of_failure (h : j.failure? = some failure) :
    j.result assembler = .error failure := by
  simp only [Joined.result, h]

/-- A join gives a document exactly if all sources are processed, and then the
one that the assembler makes of their texts. -/
theorem result_joinSources_eq_ok_iff {document : String} :
    (joinSources fs symbols strict assembler paths).result assembler = .ok document ↔
      ∃ texts, Processed fs symbols strict paths texts ∧
        assembler.finish (assembler.receive assembler.start (paths.zip texts)) = document := by
  constructor
  · intro h
    obtain ⟨done, texts, hdone, hpaths⟩ := exists_processed_prefix fs symbols strict paths
    rcases hpaths with rfl | ⟨bad, later, failure, rfl, hbad⟩
    · obtain ⟨hf, hr⟩ := joinSources_of_processed assembler hdone
      rw [result_of_goesOn hf, hr, Except.ok.injEq] at h
      exact ⟨texts, hdone, h⟩
    · rw [result_of_failure (joinSources_of_failed assembler hdone hbad later).1] at h
      cases h
  · rintro ⟨texts, hp, rfl⟩
    obtain ⟨hf, hr⟩ := joinSources_of_processed assembler hp
    rw [result_of_goesOn hf, hr]

/-! ## The first failure -/

/-- A join that fails is the same wherever the files up to the one at which it
fails hold the same. -/
theorem joinSources_congr_of_failed {fs' : FileSystem} (hp : Processed fs symbols strict done texts)
    (hbad : (processFile fs symbols strict bad).result = .error failure)
    (h : ∀ path ∈ done ++ [bad], fs'.readText path = fs.readText path) (later : List Path) :
    (joinSources fs' symbols strict assembler (done ++ bad :: later)).received =
        (joinSources fs symbols strict assembler (done ++ bad :: later)).received ∧
      (joinSources fs' symbols strict assembler (done ++ bad :: later)).result assembler =
        (joinSources fs symbols strict assembler (done ++ bad :: later)).result assembler := by
  have hp' : Processed fs' symbols strict done texts :=
    hp.congr fun path hm => h path (List.mem_append_left _ hm)
  have hbad' : (processFile fs' symbols strict bad).result = .error failure := by
    rw [processFile_congr (h bad (by simp)), hbad]
  obtain ⟨hf, hr⟩ := joinSources_of_failed assembler hp hbad later
  obtain ⟨hf', hr'⟩ := joinSources_of_failed assembler hp' hbad' later
  exact ⟨hr'.trans hr.symm, by rw [result_of_failure hf, result_of_failure hf']⟩

/-- The first source that fails decides. The assembler receives the sources in
front of it, each with the text that its own file gives, and the failure names
it; if no source fails, the join gives the document. No other file matters to a
join that fails: it is the same wherever the files up to the one at which it
fails hold the same, and so if any other file is given new content. -/
theorem joinSources_first_failure (fs : FileSystem) (symbols : Symbols) (strict : Bool)
    (assembler : Assembler σ) (paths : List Path) :
    let join fs := joinSources fs symbols strict assembler paths
    ∃ done texts, done <+: paths ∧ Processed fs symbols strict done texts ∧
      (∀ fs' path text, (path, text) ∈ done.zip texts → fs'.readText path = fs.readText path →
        (processFile fs' symbols strict path).result = .ok text) ∧
      (join fs).received = assembler.receive assembler.start (done.zip texts) ∧
      ((join fs).result assembler = .ok (assembler.finish (join fs).received) ↔ done = paths) ∧
      ∀ bad later, paths = done ++ bad :: later →
        (∃ failure, (join fs).result assembler = .error failure ∧
          (processFile fs symbols strict bad).result = .error failure ∧
          ((∃ fault, fs.readText bad = .error fault ∧ failure = .io bad fault) ∨
            ∃ source reason, fs.readText bad = .ok source ∧
              (Selection.select strict symbols (Text.lines source)).failure? = some reason ∧
              failure = .rejected bad reason)) ∧
        (∀ fs', (∀ path ∈ done ++ [bad], fs'.readText path = fs.readText path) →
          (join fs').received = (join fs).received ∧
          (join fs').result assembler = (join fs).result assembler) ∧
        ∀ l old content, fs.entry? l = some (.file old) →
          (∀ path ∈ done ++ [bad], ¬fs.LeadsTo path l) →
          (join (fs.put l (.file content))).received = (join fs).received ∧
          (join (fs.put l (.file content))).result assembler = (join fs).result assembler := by
  intro join
  obtain ⟨done, texts, hdone, hpaths⟩ := exists_processed_prefix fs symbols strict paths
  have alone : ∀ fs' path text, (path, text) ∈ done.zip texts → fs'.readText path = fs.readText path →
      (processFile fs' symbols strict path).result = .ok text := by
    intro fs' path text hm hread
    rw [processFile_congr hread]
    exact (List.forall₂_iff_zip.mp hdone).2 hm
  rcases hpaths with rfl | ⟨bad, later, failure, rfl, hbad⟩
  · obtain ⟨hf, hr⟩ := joinSources_of_processed assembler hdone
    refine ⟨paths, texts, List.prefix_rfl, hdone, alone, hr, ⟨fun _ => rfl, fun _ => result_of_goesOn hf⟩,
      fun bad later h => ?_⟩
    exact absurd (List.self_eq_append_right.mp h) (List.cons_ne_nil _ _)
  · obtain ⟨hf, hr⟩ := joinSources_of_failed assembler hdone hbad later
    refine ⟨done, texts, List.prefix_append _ _, hdone, alone, hr, ⟨fun h => ?_, fun h => ?_⟩,
      fun bad' later' h => ?_⟩
    · rw [result_of_failure hf] at h
      cases h
    · exact absurd (List.self_eq_append_right.mp h) (List.cons_ne_nil _ _)
    · obtain ⟨rfl, rfl⟩ := List.cons.inj (List.append_cancel_left h)
      refine ⟨⟨failure, result_of_failure hf, hbad, processFile_eq_error_iff.mp hbad⟩,
        fun fs' hread => joinSources_congr_of_failed hdone hbad hread later,
        fun l old content hl hlead => joinSources_congr_of_failed hdone hbad (fun path hm => ?_) later⟩
      exact FileSystem.readText_put_of_file hl content (hlead path hm)

end Join

end Amalgam
