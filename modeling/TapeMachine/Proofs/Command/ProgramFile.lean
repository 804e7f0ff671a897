import TapeMachine.Command
import TapeMachine.Proofs.Command.Store
import TapeMachine.Proofs.ProgramText.Writing

namespace TapeMachine.Command

open Text

theorem unifyLineEnds_of_not_mem {text : List Char} (h : '\r' ∉ text) :
    unifyLineEnds text = text := by
  induction text with
  | nil => rfl
  | cons c text ih =>
    rw [List.mem_cons, not_or] at h
    rw [unifyLineEnds]
    · rw [ih h.2]
    · rintro _ rfl
      exact absurd rfl h.1
    · rintro rfl
      exact absurd rfl h.1

namespace AssembleRequest

theorem not_mem_return_fileText (words : List Int) : '\r' ∉ (fileText words).toList := by
  intro hmem
  rw [fileText, String.toList_append, List.mem_append] at hmem
  obtain hmem | hmem := hmem
  · obtain hcomma | ⟨item, hitem, hmem⟩ := Assembly.mem_intercalate hmem
    · exact absurd hcomma (by decide)
    · obtain ⟨n, _, rfl⟩ := List.mem_map.1 hitem
      cases Assembly.mem_toString hmem
  · exact absurd hmem (by decide)

theorem contents_fileText (words : List Int) :
    contents (.ok (fileText words)) = .ok (fileText words) := by
  rw [contents, unifyLineEnds_of_not_mem (not_mem_return_fileText words), String.ofList_toList]

theorem read_fileText (words : List Int) :
    ProgramText.read (fileText words) = if words = [] then .error ⟨⟨2, 1⟩⟩ else .ok words := by
  split
  · next h =>
    subst h
    decide +kernel
  · next h =>
    exact ProgramText.read_write h (.singleton rfl)

theorem loadProgram_fileText (words : List Int) :
    loadProgram (.ok (fileText words)) =
      if words = [] then .error (.program ⟨⟨2, 1⟩⟩) else .ok words := by
  have hread := read_fileText words
  by_cases h : words = []
  · rw [if_pos h] at hread ⊢
    simp only [loadProgram, contents_fileText, hread]
  · rw [if_neg h] at hread ⊢
    simp only [loadProgram, contents_fileText, hread]

theorem file_report (request : AssembleRequest) {given : Except FileError String}
    {source : String} {words : List Int} (hgiven : contents given = .ok source)
    (hwords : Assembly.assemble source = .ok words) :
    (request.report given).file = some (request.target, fileText words) := by
  rw [report, hgiven]
  simp only [hwords]

end AssembleRequest

theorem read_of_settle {store store' : Store} {report last : Report} {path : Path}
    {text : String} (hfile : report.file = some (path, text))
    (h : settle store report = (last, store')) (hexit : last.exit = 0) :
    store'.read path = .ok text := by
  simp only [settle, hfile] at h
  cases hwrite : Store.write path text store with
  | mk result written =>
    rw [hwrite] at h
    cases result with
    | ok _ =>
      cases h
      exact Store.read_of_write hwrite
    | error error =>
      cases h
      cases hexit

/-- Once a source file has been assembled, the words of the program are what is loaded from the
target, unless there are none. -/
theorem load_assembled {source : String} {words : List Int}
    (hwords : Assembly.assemble source = .ok words) :
    ProgramText.read (AssembleRequest.fileText words) =
        (if words = [] then .error ⟨⟨2, 1⟩⟩ else .ok words) ∧
      ∀ {request : AssembleRequest} {store store' : Store} {last : Report},
        contents (store.read request.source) = .ok source →
        settle store ((request.report (store.read request.source)).filtered request.verbose) =
          (last, store') →
        last.exit = 0 →
        store'.read request.target = .ok (AssembleRequest.fileText words) ∧
          loadProgram (store'.read request.target) =
            if words = [] then .error (.program ⟨⟨2, 1⟩⟩) else .ok words := by
  refine ⟨AssembleRequest.read_fileText words, ?_⟩
  intro request store store' last hgiven hsettle hexit
  have hfile : ((request.report (store.read request.source)).filtered request.verbose).file =
      some (request.target, AssembleRequest.fileText words) :=
    request.file_report hgiven hwords
  have hread : store'.read request.target = .ok (AssembleRequest.fileText words) :=
    read_of_settle hfile hsettle hexit
  rw [hread, AssembleRequest.loadProgram_fileText]
  exact ⟨rfl, rfl⟩

def sourceOnly : Store := ⟨[(⟨.above 0, ["a.asm"]⟩, .file "out #-7 hlt DW end end:")]⟩

def assembleThere : AssembleRequest := ⟨false, ⟨"", ["a.asm"]⟩, ⟨"", ["build", "a.ic"]⟩⟩

theorem load_assembled_there :
    ∃ last store', settle sourceOnly ((assembleThere.report
        (sourceOnly.read assembleThere.source)).filtered assembleThere.verbose) = (last, store') ∧
      last.exit = 0 ∧ loadProgram (store'.read assembleThere.target) = .ok [104, -7, 99, 4] := by
  have hwords : Assembly.assemble "out #-7 hlt DW end end:" = .ok [104, -7, 99, 4] := by
    decide +kernel
  have hgiven : contents (sourceOnly.read assembleThere.source) =
      .ok "out #-7 hlt DW end end:" := by
    decide +kernel
  have hexit : (settle sourceOnly ((assembleThere.report
      (sourceOnly.read assembleThere.source)).filtered assembleThere.verbose)).1.exit = 0 := by
    decide +kernel
  exact ⟨_, _, rfl, hexit, ((load_assembled hwords).2 hgiven rfl hexit).2⟩

theorem not_read_assembled_comment :
    Assembly.assemble "// nothing here\n" = .ok [] ∧
    ProgramText.read (AssembleRequest.fileText []) ≠ .ok [] := by
  decide +kernel

end TapeMachine.Command
