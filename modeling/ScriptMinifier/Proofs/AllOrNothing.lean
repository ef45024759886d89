-- A run of the command writes all or nothing. Here it is told step by step, with the files as each
-- step leaves them, and all steps that may fail come before the first that changes anything. So a
-- run that fails has touched nothing, even where the output takes the place of the input.
import ScriptMinifier.CommandLine.Run

namespace ScriptMinifier.CommandLine

/-! ## Files in their places -/

namespace Folder

variable {folder after : Folder} {place : List String}

/-- The folder with one file made anew. -/
def put (folder : Folder) (place : List String) (content : ByteArray) : Folder :=
  { files := (place, content) :: folder.files.filter fun file => file.1 != place }

theorem put_put (folder : Folder) (place : List String) (content other : ByteArray) :
    (folder.put place content).put place other = folder.put place other := by
  simp [put]

theorem lookup_filter {other : List String} (h : other ≠ place)
    (files : List (List String × ByteArray)) :
    (files.filter fun file => file.1 != place).lookup other = files.lookup other := by
  induction files with
  | nil => rfl
  | cons file files ih =>
    obtain ⟨name, content⟩ := file
    by_cases hname : name = place
    · subst hname
      simp [List.lookup_cons, ih, beq_false_of_ne h]
    · simp [hname, List.lookup_cons, ih]

theorem lookup_put (folder : Folder) (place other : List String) (content : ByteArray) :
    (folder.put place content).files.lookup other =
      if other = place then some content else folder.files.lookup other := by
  rw [put, List.lookup_cons]
  by_cases h : other = place
  · simp [h]
  · rw [lookup_filter h, beq_false_of_ne h, if_neg h]

/-! ## Paths after a change -/

theorem isFolder_iff {path : List String} :
    folder.isFolder path = true ↔
      path = [] ∨ ∃ file ∈ folder.files, path <+: file.1 ∧ path ≠ file.1 := by
  simp [isFolder]

theorem isFolder_of_outer {path outer : List String} (h : folder.isFolder path = true)
    (houter : outer <+: path) : folder.isFolder outer = true := by
  rw [isFolder_iff] at h ⊢
  rcases h with rfl | ⟨file, hfile, hinner, hne⟩
  · exact Or.inl (List.prefix_nil.1 houter)
  · refine Or.inr ⟨file, hfile, houter.trans hinner, ?_⟩
    rintro rfl
    exact hne (hinner.eq_of_length_le houter.length_le)

/-- A path leads to a name in a folder that is there. -/
theorem isFolder_dropLast_of_walk {parts : List String} (hplace : folder.isFolder place = true)
    {reached : List String} (h : folder.walk place parts = some reached) :
    folder.isFolder reached.dropLast = true := by
  fun_induction walk folder place parts with
  | case1 => cases h
  | case2 =>
    cases h
    simpa using hplace
  | case3 => cases h
  | case4 _ _ _ _ _ ih => exact ih hplace h
  | case5 => cases h
  | case6 _ _ _ _ _ _ _ ih => exact ih (isFolder_of_outer hplace (List.dropLast_prefix _)) h
  | case7 _ _ _ _ _ _ hinner ih => exact ih hinner h
  | case8 => cases h

theorem isFolder_dropLast_of_resolve {path : String} (h : folder.resolve path = some place) :
    folder.isFolder place.dropLast = true := by
  unfold resolve at h
  split at h
  · cases h
  · exact isFolder_dropLast_of_walk (by simp [isFolder]) h

/-- A file made anew in a folder makes no other folder, and none goes away. -/
theorem isFolder_put (h : folder.isFolder place.dropLast = true) (content : ByteArray)
    (path : List String) : (folder.put place content).isFolder path = folder.isFolder path := by
  rw [Bool.eq_iff_iff, isFolder_iff, put]
  constructor
  · rintro (rfl | ⟨file, hfile, hinner, hne⟩)
    · rfl
    · rcases List.mem_cons.1 hfile with rfl | hfile
      · -- The way to the place leads through folders only, and they were there before.
        rcases List.eq_nil_or_concat place with rfl | ⟨outer, name, rfl⟩
        · exact absurd (List.prefix_nil.1 hinner) hne
        · rw [List.concat_eq_append] at h hinner hne
          rw [List.dropLast_concat] at h
          exact isFolder_of_outer h ((List.prefix_concat_iff.1 hinner).resolve_left hne)
      · exact isFolder_iff.2 (Or.inr ⟨file, (List.mem_filter.1 hfile).1, hinner, hne⟩)
  · intro hpath
    rcases isFolder_iff.1 hpath with rfl | ⟨file, hfile, hinner, hne⟩
    · exact Or.inl rfl
    · refine Or.inr ?_
      by_cases hsame : file.1 = place
      · exact ⟨_, List.mem_cons_self, hsame ▸ hinner, hsame ▸ hne⟩
      · exact ⟨file, by simp [hfile, hsame], hinner, hne⟩

theorem walk_congr (h : ∀ path, after.isFolder path = folder.isFolder path)
    (parts : List String) : after.walk place parts = folder.walk place parts := by
  fun_induction walk folder place parts with
  | _ => simp_all [walk]

theorem resolve_congr (h : ∀ path, after.isFolder path = folder.isFolder path) (path : String) :
    after.resolve path = folder.resolve path := by
  rw [resolve, resolve, walk_congr h]

/-- The files are the same in both folders, but for the content in one place. Every path leads where
it led before. -/
structure IsUpdate (folder after : Folder) (place : List String) (content : ByteArray) : Prop where
  resolve : ∀ path, after.resolve path = folder.resolve path
  lookup : ∀ other, after.files.lookup other =
    if other = place then some content else folder.files.lookup other

theorem isUpdate_put (h : folder.isFolder place.dropLast = true) (content : ByteArray) :
    folder.IsUpdate (folder.put place content) place content :=
  ⟨resolve_congr (isFolder_put h content), fun other => lookup_put folder place other content⟩

end Folder

/-! ## What the machine allows -/

/-- Where the paths lead, which files may be opened and made, and whether the standard input can be
read. Where the machine refuses, nothing happens. -/
structure Access where
  /-- An absolute path may lead somewhere too, and two paths may lead to one place. -/
  leads : String → Option (List String)
  reads : List String → Bool
  readsStdin : Bool
  creates : List String → Bool

namespace Access

/-- Nothing is refused, and each path leads where it does in the folder. -/
def full (folder : Folder) : Access :=
  { leads := folder.resolve
    reads := fun _ => true
    readsStdin := true
    creates := fun _ => true }

/-- The input of a request, if it can be read. -/
def input? (access : Access) (request : Request) (stdin : ByteArray) (folder : Folder) :
    Option ByteArray :=
  match request.input with
  | some path => ((access.leads path).filter access.reads).bind fun place =>
      folder.files.lookup place
  | none => if access.readsStdin then some stdin else none

/-- The place of a file that can be made anew, in a folder that is there. -/
def site? (access : Access) (folder : Folder) (path : String) : Option (List String) :=
  (access.leads path).filter fun place =>
    !folder.isFolder place && folder.isFolder place.dropLast && access.creates place

theorem of_site? {access : Access} {folder : Folder} {path : String} {place : List String}
    (h : access.site? folder path = some place) :
    access.leads path = some place ∧ folder.isFolder place.dropLast = true := by
  obtain ⟨hleads, hplace⟩ := Option.filter_eq_some_iff.1 h
  simp only [Bool.and_eq_true] at hplace
  exact ⟨hleads, hplace.1.2⟩

theorem input?_full (request : Request) (stdin : ByteArray) (folder : Folder) :
    (full folder).input? request stdin folder = request.input? folder stdin := by
  unfold input? Request.input?
  cases request.input with
  | none => rfl
  | some path =>
    cases hplace : folder.resolve path <;> simp [full, Folder.read?, hplace, Option.filter_some]

theorem write?_eq (folder : Folder) (path : String) (content : ByteArray) :
    folder.write? path content =
      ((full folder).site? folder path).map (folder.put · content) := by
  unfold Folder.write? site?
  cases hplace : folder.resolve path with
  | none => simp [full, hplace]
  | some place =>
    have houter := Folder.isFolder_dropLast_of_resolve hplace
    cases hfolder : folder.isFolder place <;>
      simp [full, hplace, houter, hfolder, Folder.put, Option.filter_some]

end Access

/-! ## The run step by step -/

/-- What the run has made of the world so far. -/
structure World where
  folder : Folder
  stdout : String

/-- A step may fail, and then no other follows. What has been done stays done. -/
abbrev Step := OptionT (StateM World)

namespace Step

/-- A step that finds something out and changes nothing. -/
def ask {α : Type} (find : World → Option α) : Step α :=
  OptionT.mk fun world => (find world, world)

/-- A step that changes the world and cannot fail. -/
def act (change : World → World) : Step Unit := OptionT.mk fun world => (some (), change world)

/-- Opens a file to write it. The file is there and empty from now on. -/
def create (access : Access) (path : String) : Step (List String) := do
  let place ← ask fun world => access.site? world.folder path
  act fun world => { world with folder := world.folder.put place .empty }
  return place

/-- Writes on at the end of an open file. -/
def append (place : List String) (content : ByteArray) : Step Unit :=
  act fun world => { world with
    folder := world.folder.put place
      (((world.folder.files.lookup place).getD .empty) ++ content) }

def print (text : String) : Step Unit :=
  act fun world => { world with stdout := world.stdout ++ text }

/-- All that is done for a request. -/
def serve (access : Access) (request : Request) (stdin : ByteArray) : Step Unit := do
  let input ← ask fun world => access.input? request stdin world.folder
  let text ← ask fun _ => request.answer? input
  match request.output with
  | none => print text
  | some path =>
    let place ← create access path
    append place text.toUTF8

/-- How a run ends, from its first step on. -/
def outcome (step : Step Unit) (folder : Folder) : Outcome :=
  let (done, world) := step.run.run { folder, stdout := "" }
  { status := if done.isSome then 0 else 1, stdout := world.stdout, folder := world.folder }

/-! ## What the steps do -/

theorem run_ask_bind {α β : Type} (find : World → Option α) (next : α → Step β) (world : World) :
    (ask find >>= next).run.run world =
      match find world with
      | none => (none, world)
      | some found => (next found).run.run world := by
  rw [OptionT.run_bind, Option.elimM, StateT.run_bind, ask, OptionT.run_mk, StateT.run]
  cases find world <;> rfl

theorem run_act (change : World → World) (world : World) :
    (act change).run.run world = (some (), change world) := rfl

theorem run_act_bind {β : Type} (change : World → World) (next : Unit → Step β) (world : World) :
    (act change >>= next).run.run world = (next ()).run.run (change world) := by
  rw [OptionT.run_bind, Option.elimM, StateT.run_bind, run_act]
  rfl

/-- A file that is made and then written is a file with the content, and the folder does not show
that it was empty in between. -/
theorem run_create_append (access : Access) (path : String) (content : ByteArray) (world : World) :
    (create access path >>= fun place => append place content).run.run world =
      match access.site? world.folder path with
      | none => (none, world)
      | some place => (some (), { world with folder := world.folder.put place content }) := by
  simp only [create, bind_assoc, run_ask_bind]
  cases access.site? world.folder path with
  | none => rfl
  | some place =>
    simp only [run_act_bind, pure_bind, append, run_act, Folder.lookup_put, Folder.put_put, if_true,
      Option.getD_some, ByteArray.empty_append]

theorem run_serve (access : Access) (request : Request) (stdin : ByteArray) (world : World) :
    (serve access request stdin).run.run world =
      match (access.input? request stdin world.folder).bind request.answer? with
      | none => (none, world)
      | some text =>
        match request.output with
        | none => (some (), { world with stdout := world.stdout ++ text })
        | some path =>
          match access.site? world.folder path with
          | none => (none, world)
          | some place =>
            (some (), { world with folder := world.folder.put place text.toUTF8 }) := by
  rw [serve, run_ask_bind]
  cases access.input? request stdin world.folder with
  | none => rfl
  | some input =>
    rw [Option.bind_some]
    simp only [run_ask_bind]
    cases request.answer? input with
    | none => rfl
    | some text =>
      cases request.output with
      | none => rfl
      | some path => exact run_create_append access path text.toUTF8 world

end Step

/-- The command does what the steps do where nothing is refused. -/
theorem serve_eq_outcome (request : Request) (folder : Folder) (stdin : ByteArray) :
    serve request folder stdin = (Step.serve (.full folder) request stdin).outcome folder := by
  rw [serve, Step.outcome, Step.run_serve, Access.input?_full]
  cases (request.input? folder stdin).bind request.answer? with
  | none => rfl
  | some text =>
    cases request.output with
    | none => simp
    | some path =>
      dsimp only
      rw [Access.write?_eq]
      cases (Access.full folder).site? folder path <;> rfl

/-! ## What is written -/

theorem fromUTF8?_eq_some_iff (input : ByteArray) (source : String) :
    String.fromUTF8? input = some source ↔ source.toUTF8 = input := by
  unfold String.fromUTF8?
  constructor
  · intro h
    split at h
    · cases h
      rfl
    · cases h
  · rintro rfl
    exact dif_pos source.isValidUTF8

/-- The minified script, or the script itself if it cannot be minified. -/
def textWith (style : Style) (source : String) : String :=
  match minify source style with
  | .ok minified => minified
  | .error _ => source

namespace Request

/-- The settings are those that are asked for, and a line length of 1000 where none is. -/
theorem style_eq (request : Request) :
    request.style =
      { maxLineLength := request.maxLineLength.getD 1000
        statementsOnOwnLine := request.statementsOnOwnLine } :=
  rfl

/-- The script can be minified, or may be passed on as it is. -/
def accepts (request : Request) (source : String) : Bool :=
  (minify source request.style).isOk || request.passThroughOnError

theorem accepts_iff {request : Request} {source : String} :
    request.accepts source = true ↔
      (minify source request.style).isOk = true ∨ request.passThroughOnError = true :=
  Bool.or_eq_true_iff

theorem answer?_toUTF8 (request : Request) (source : String) :
    request.answer? source.toUTF8 =
      if request.accepts source then some (textWith request.style source) else none := by
  rw [answer?, (fromUTF8?_eq_some_iff _ _).2 rfl, Option.bind_eq_bind, Option.bind_some, accepts,
    textWith]
  cases minify source request.style with
  | ok minified => rfl
  | error => rfl

theorem exists_source_of_answer? {request : Request} {input : ByteArray} {text : String}
    (h : request.answer? input = some text) :
    ∃ source, source.toUTF8 = input ∧ request.accepts source = true ∧
      textWith request.style source = text := by
  obtain ⟨source, hsource, _⟩ := Option.bind_eq_some_iff.1 h
  obtain rfl := (fromUTF8?_eq_some_iff _ _).1 hsource
  rw [answer?_toUTF8] at h
  split at h
  · next haccepts => exact ⟨source, rfl, haccepts, Option.some.inj h⟩
  · cases h

end Request

/-! ## How a run ends -/

/-- What a run needs: an input that can be read and is text, a script in it that can be minified or
may be passed on, and an output that can be made. -/
structure CanServe (access : Access) (request : Request) (style : Style) (folder : Folder)
    (stdin : ByteArray) : Prop where
  input : ∃ source : String, access.input? request stdin folder = some source.toUTF8 ∧
    ((minify source style).isOk = true ∨ request.passThroughOnError = true)
  output : ∀ path, request.output = some path → (access.site? folder path).isSome = true

/-- The ways a run can end: with the text printed, with the text in a file, or with nothing done. -/
inductive Ends (access : Access) (request : Request) (folder : Folder) (stdin : ByteArray) :
    Outcome → Prop where
  | printed {source : String} (read : access.input? request stdin folder = some source.toUTF8)
      (accepted : request.accepts source = true) (output : request.output = none) :
      Ends access request folder stdin
        { status := 0, stdout := textWith request.style source, folder }
  | stored {source path : String} {place : List String}
      (read : access.input? request stdin folder = some source.toUTF8)
      (accepted : request.accepts source = true) (output : request.output = some path)
      (site : access.site? folder path = some place) :
      Ends access request folder stdin
        { status := 0
          stdout := ""
          folder := folder.put place (textWith request.style source).toUTF8 }
  | failed (unable : ¬ CanServe access request request.style folder stdin) :
      Ends access request folder stdin (.failure folder)

theorem ends_outcome (access : Access) (request : Request) (folder : Folder) (stdin : ByteArray) :
    Ends access request folder stdin ((Step.serve access request stdin).outcome folder) := by
  rw [Step.outcome, Step.run_serve]
  cases hanswer : (access.input? request stdin folder).bind request.answer? with
  | none =>
    apply Ends.failed
    rintro ⟨⟨source, hread, haccepted⟩, _⟩
    rw [hread, Option.bind_some, Request.answer?_toUTF8, Request.accepts_iff.2 haccepted] at hanswer
    cases hanswer
  | some text =>
    obtain ⟨input, hread, htext⟩ := Option.bind_eq_some_iff.1 hanswer
    obtain ⟨source, rfl, haccepted, rfl⟩ := Request.exists_source_of_answer? htext
    cases houtput : request.output with
    | none => simpa using Ends.printed hread haccepted houtput
    | some path =>
      cases hsite : access.site? folder path with
      | none =>
        simp only [hsite]
        apply Ends.failed
        intro hserve
        have hsome := hserve.output path houtput
        rw [hsite] at hsome
        cases hsome
      | some place =>
        simp only [hsite]
        exact .stored hread haccepted houtput hsite

/-! ## The law -/

/-- The run ends well if and only if it can be served. Then the result is in one place, and all else
is as it was. If the run fails, everything is as it was. -/
structure Outcome.IsAllOrNothing (outcome : Outcome) (access : Access) (request : Request)
    (style : Style) (folder : Folder) (stdin : ByteArray) : Prop where
  succeeds : outcome.status = 0 ↔ CanServe access request style folder stdin
  printed : outcome.status = 0 → request.output = none →
    ∀ source : String, access.input? request stdin folder = some source.toUTF8 →
      outcome.stdout = textWith style source ∧ outcome.folder = folder
  stored : outcome.status = 0 → ∀ path, request.output = some path →
    ∀ source : String, access.input? request stdin folder = some source.toUTF8 →
      outcome.stdout = "" ∧ ∃ place, access.leads path = some place ∧
        folder.IsUpdate outcome.folder place (textWith style source).toUTF8
  untouched : outcome.status ≠ 0 → outcome.stdout = "" ∧ outcome.folder = folder

theorem Ends.isAllOrNothing {access : Access} {request : Request} {folder : Folder}
    {stdin : ByteArray} {outcome : Outcome} (h : Ends access request folder stdin outcome) :
    outcome.IsAllOrNothing access request request.style folder stdin := by
  -- The bytes tell the text, so there is one source only.
  have hsame : ∀ source other : String, access.input? request stdin folder = some source.toUTF8 →
      access.input? request stdin folder = some other.toUTF8 → other = source := by
    intro source other hsource hother
    rw [hsource, Option.some.injEq] at hother
    exact String.toByteArray_inj.1 hother.symm
  cases h with
  | @printed source hread haccepted houtput =>
    have hserve : CanServe access request request.style folder stdin :=
      ⟨⟨source, hread, Request.accepts_iff.1 haccepted⟩, by simp [houtput]⟩
    refine ⟨by simp [hserve], ?_, by simp [houtput], by simp⟩
    intro _ _ other hother
    rw [hsame source other hread hother]
    exact ⟨rfl, rfl⟩
  | @stored source path place hread haccepted houtput hsite =>
    have hserve : CanServe access request request.style folder stdin :=
      ⟨⟨source, hread, Request.accepts_iff.1 haccepted⟩, by simp [houtput, hsite]⟩
    refine ⟨by simp [hserve], by simp [houtput], ?_, by simp⟩
    intro _ other hother text htext
    rw [houtput, Option.some.injEq] at hother
    obtain ⟨hleads, houter⟩ := Access.of_site? hsite
    rw [hsame source text hread htext, ← hother]
    exact ⟨rfl, place, hleads, Folder.isUpdate_put houter _⟩
  | failed hunable =>
    refine ⟨?_, ?_, ?_, fun _ => ⟨rfl, rfl⟩⟩
    · simp [Outcome.failure, hunable]
    · simp [Outcome.failure]
    · simp [Outcome.failure]

/-- Wherever the paths lead and whatever the machine refuses, the steps of a run write all or
nothing, and what they write is minified with the settings of the request. So does the command,
which takes these steps for every request that it can read off its arguments. -/
theorem command_writes_all_or_nothing (request : Request) (folder : Folder) (stdin : ByteArray) :
    let style : Style :=
      { maxLineLength := request.maxLineLength.getD 1000
        statementsOnOwnLine := request.statementsOnOwnLine }
    (∀ access : Access, ((Step.serve access request stdin).outcome folder).IsAllOrNothing access
      request style folder stdin) ∧
    serve request folder stdin = (Step.serve (.full folder) request stdin).outcome folder ∧
    ∀ arguments, Request.ofArguments arguments = .ok request →
      (run arguments folder stdin).IsAllOrNothing (.full folder) request style folder stdin := by
  intro style
  have hsteps : ∀ access : Access, ((Step.serve access request stdin).outcome folder).IsAllOrNothing
      access request style folder stdin := by
    intro access
    have h := (ends_outcome access request folder stdin).isAllOrNothing
    rwa [request.style_eq] at h
  refine ⟨hsteps, serve_eq_outcome request folder stdin, ?_⟩
  intro arguments hrequest
  have hrun : run arguments folder stdin = serve request folder stdin := by rw [run, hrequest]
  rw [hrun, serve_eq_outcome]
  exact hsteps (.full folder)

/-- A file is minified in its place, with the settings that are asked for, or printed with them. A
file that cannot be minified is left alone. -/
theorem file_minified_in_its_place :
    let folder : Folder :=
      { files := [(["d", "a.js"], "f ( x ) ; g ( )".toUTF8), (["b.js"], "'".toUTF8)] }
    let settings : Request := { maxLineLength := some 4, statementsOnOwnLine := true }
    let done := run ["d/a.js", "--max-line-length", "4", "-o", "d/a.js",
      "--statements-on-own-line"] folder .empty
    let shown := serve { settings with input := some "d/a.js" } folder .empty
    let failed := run ["b.js", "-o", "b.js"] folder .empty
    (done.status = 0 ∧ done.stdout = "" ∧
      done.folder.files.lookup ["d", "a.js"] = some "f(x)\n;\ng()".toUTF8 ∧
      done.folder.files.lookup ["b.js"] = some "'".toUTF8) ∧
    (shown.status = 0 ∧ shown.stdout = "f(x)\n;\ng()" ∧ shown.folder = folder) ∧
    failed.status = 1 ∧ failed.stdout = "" ∧ failed.folder = folder := by
  intro folder settings done shown failed
  have hdone : done.status = 0 := by decide +kernel
  have hshown : shown.status = 0 := by decide +kernel
  have hfailed : failed.status = 1 := by decide +kernel
  obtain ⟨_, _, hstored⟩ := command_writes_all_or_nothing
    { settings with input := some "d/a.js", output := some "d/a.js" } folder .empty
  obtain ⟨hsteps, hserve, _⟩ := command_writes_all_or_nothing
    { settings with input := some "d/a.js" } folder .empty
  obtain ⟨_, _, hrefused⟩ := command_writes_all_or_nothing
    { input := some "b.js", output := some "b.js" } folder .empty
  obtain ⟨hstdout, place, hplace, hupdate⟩ := (hstored _ rfl).stored hdone
    "d/a.js" rfl "f ( x ) ; g ( )" (by decide +kernel)
  obtain rfl : place = ["d", "a.js"] :=
    Option.some.inj (hplace.symm.trans (by decide +kernel))
  have hprinted := (hsteps (.full folder)).printed
  rw [← hserve] at hprinted
  obtain ⟨htext, hfolder⟩ := hprinted hshown rfl "f ( x ) ; g ( )" (by decide +kernel)
  refine ⟨⟨hdone, hstdout, ?_, ?_⟩, ⟨hshown, ?_, hfolder⟩, hfailed, ?_⟩
  · rw [hupdate.lookup, if_pos rfl]
    decide +kernel
  · rw [hupdate.lookup, if_neg (by decide)]
    rfl
  · rw [htext]
    decide +kernel
  · exact (hrefused ["b.js", "-o", "b.js"] rfl).untouched (by rw [hfailed]; decide)

end ScriptMinifier.CommandLine
