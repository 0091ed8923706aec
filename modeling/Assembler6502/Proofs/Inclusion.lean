import Assembler6502.Proofs.Complaints

/-!
# Files inside each other

A line can ask for a file, and the lines of that file can ask for further files. A file that is
being read is not read again before its end, so files inside each other are all different, and as
there are finitely many of them there is an end to it, whatever the files ask for. Standard input
is no file and could be asked for again and again, but it has lines at most once.

Reading files is bounded by a depth, and the depth is never reached. So it is as if there were no
bound: reading a file is the only solution of the equation that says how a file is read in terms of
the files that it asks for.

## Main definitions

* `Reading.Call`: a file that is asked for
* `Reading.rank`: the number of files that are left to be inside
* `Reading.Call.nested`, `Reading.Call.made`: the files that a file asks for, and all files that are
  asked for before its end
* `Reading.Call.Recursive`: a file that is asked for while it is being read

## Main results

* `Reading.rank_nested`: files that a file asks for have fewer files left to be inside
* `Reading.answer_loadOver`: a depth above this number is never reached
* `Reading.recursions_answer`: a file that includes itself is reported where it is asked for
* `Source.inclusion_ends`: reading sources ends, keeps the files being read apart and reports
  exactly those that include themselves
-/

namespace Assembler6502

/-- The fault is that a file includes itself. -/
def Fault.isRecursive : Fault → Bool
  | .parse e => e.isRecursive
  | _ => false

namespace Reading

/-! ## Lines that ask for files -/

/-- A file that is asked for: where, from which directory, by which name, whether once only, and
what was read before. -/
structure Call where
  location : Location
  directory : String
  name : String
  once : Bool
  reading : Reading

/-- What a loader makes of a file that is asked for. -/
def Loader.answer (load : Loader) (c : Call) : Reading × Option Node :=
  load c.location c.directory c.name c.once c.reading

/-- The file that a line asks for. -/
def lineCall? (file directory : String) (r : Reading) (tokens : List Token) : Option Call :=
  let labelled := (r.readLabels file tokens).1
  let (_, count, rest) := Source.takeLabels r.anonymousLabels tokens
  match Source.readPhrase ⟨labelled.cpu, labelled.charmap, count⟩ rest with
  | .ok (.include name once) => some ⟨lineLocation file tokens, directory, name, once, labelled⟩
  | _ => none

section Lines

variable {fs : FileSystem} {load other : Loader} {file directory : String} {r : Reading}

/-- A line that asks for a file does what the loader does. -/
theorem lineOutcome_of_call {tokens : List Token} {c : Call}
    (h : lineCall? file directory r tokens = some c) :
    r.lineOutcome fs load file directory tokens =
      .ok ((load.answer c).1, (load.answer c).2.toList) := by
  simp only [lineCall?] at h
  split at h
  · rename_i hphrase
    cases h
    simp only [lineOutcome, hphrase]
    rfl
  · cases h

/-- Loaders that agree on the file that a line asks for read the line alike. -/
theorem lineOutcome_congr {tokens : List Token}
    (h : ∀ c, lineCall? file directory r tokens = some c → load.answer c = other.answer c) :
    r.lineOutcome fs load file directory tokens =
      r.lineOutcome fs other file directory tokens := by
  cases hcall : lineCall? file directory r tokens with
  | some c => rw [lineOutcome_of_call hcall, lineOutcome_of_call hcall, h c hcall]
  | none =>
    simp only [lineCall?] at hcall
    simp only [lineOutcome]
    cases hphrase : Source.readPhrase ⟨(r.readLabels file tokens).1.cpu,
        (r.readLabels file tokens).1.charmap, (Source.takeLabels r.anonymousLabels tokens).2.1⟩
        (Source.takeLabels r.anonymousLabels tokens).2.2 with
    | error e => rfl
    | ok phrase =>
      cases phrase with
      | «include» name once => simp [hphrase] at hcall
      | _ => rfl

/-- What was read behind a line. -/
def behindLine (fs : FileSystem) (load : Loader) (file directory : String) (r : Reading)
    (line : Source.Line) : Reading :=
  (r.readStatements fs load file directory line.tokens).1.reportFaults file line.faults

theorem fst_readLines (lines : List Source.Line) :
    (readLines fs load file directory r lines).1 =
      lines.foldl (behindLine fs load file directory) r := by
  induction lines generalizing r with
  | nil => rfl
  | cons line rest ih => exact ih

/-- The files that lines ask for. -/
def lineCalls (fs : FileSystem) (load : Loader) (file directory : String) (r : Reading)
    (lines : List Source.Line) : List Call :=
  (reached (behindLine fs load file directory) r lines).filterMap fun x =>
    lineCall? file directory x.1 x.2.tokens

theorem lineCalls_cons (line : Source.Line) (rest : List Source.Line) :
    lineCalls fs load file directory r (line :: rest) =
      (lineCall? file directory r line.tokens).toList ++
        lineCalls fs load file directory (behindLine fs load file directory r line) rest := by
  rw [lineCalls, reached_cons, List.filterMap_cons]
  cases hcall : lineCall? file directory r line.tokens <;> rfl

/-- **Loaders that agree on the files that lines ask for** read the lines alike. -/
theorem readLines_congr {lines : List Source.Line}
    (h : ∀ c ∈ lineCalls fs other file directory r lines, load.answer c = other.answer c) :
    readLines fs load file directory r lines = readLines fs other file directory r lines := by
  induction lines generalizing r with
  | nil => rfl
  | cons line rest ih =>
    rw [lineCalls_cons] at h
    -- A line asks for one file at most.
    have hline : r.readStatements fs load file directory line.tokens =
        r.readStatements fs other file directory line.tokens := by
      rw [readStatements_eq_match, readStatements_eq_match, lineOutcome_congr fun c hc =>
        h c (List.mem_append_left _ (Option.mem_toList.mpr hc))]
    have hrest := ih fun c hc => h c (List.mem_append_right _ hc)
    simp only [readLines, hline]
    exact congrArg (fun x : Reading × List Node => (x.1, _ ++ x.2)) hrest

end Lines

/-! ## Reports, and what the inclusion of files depends on -/

/-- The reports that files include themselves. -/
def recursions (r : Reading) : List (Located Fault) :=
  r.diagnostics.errors.filter fun fault => fault.value.isRecursive

/-- The files being read, what is left of standard input, and the reports that files include
themselves. -/
structure Standing where
  including : List FileKey
  input : Except FileError (List UInt8)
  recursions : List (Located Fault)

def standing (r : Reading) : Standing :=
  ⟨r.including, r.input, r.recursions⟩

section Standing

variable {fs : FileSystem} {load : Loader} {file directory : String} {r : Reading}

theorem recursions_error (location : Location) (e : ParseError) :
    (r.error location e).recursions =
      r.recursions ++ if e.isRecursive then [⟨location, .parse e⟩] else [] := by
  rw [recursions, error, Diagnostics.error, List.filter_append, List.filter_singleton]
  cases hrecursive : e.isRecursive <;> simp [recursions, Fault.isRecursive, hrecursive]

theorem standing_error {location : Location} {e : ParseError} (h : e.isRecursive = false) :
    (r.error location e).standing = r.standing := by
  simp only [standing, recursions_error, h]
  rw [if_neg Bool.false_ne_true, List.append_nil]
  rfl

theorem standing_reportFaults (faults : List (Position × LexError)) :
    (r.reportFaults file faults).standing = r.standing := by
  induction faults generalizing r with
  | nil => rfl
  | cons fault rest ih => exact (ih (r := r.error _ _)).trans (standing_error rfl)

theorem standing_perform {location : Location} {phrase : Source.Phrase}
    (h : ∀ name once, phrase ≠ .include name once) :
    Yields (fun x => x.1.standing = r.standing)
      (r.perform fs load directory location phrase) := by
  intro x hx
  cases performs_perform directory phrase x hx with
  | file name once => exact absurd rfl (h name once)
  | _ => rfl

/-- Behind a line that asks for a file is what the loader has made of it. -/
theorem standing_behindLine_of_call (fs : FileSystem) (load : Loader) {line : Source.Line}
    {c : Call} (h : lineCall? file directory r line.tokens = some c) :
    c.reading.standing = r.standing ∧
      (behindLine fs load file directory r line).standing = (load.answer c).1.standing := by
  constructor
  · simp only [lineCall?] at h
    split at h
    · cases h
      rfl
    · cases h
  · rw [behindLine, standing_reportFaults, readStatements_eq_match, lineOutcome_of_call h]

/-- A line that asks for no file has nothing to do with inclusion. -/
theorem standing_behindLine_of_none (fs : FileSystem) (load : Loader) {line : Source.Line}
    (h : lineCall? file directory r line.tokens = none) :
    (behindLine fs load file directory r line).standing = r.standing := by
  have hphrase : Yields (fun phrase => ∀ name once, phrase ≠ .include name once)
      (Source.readPhrase ⟨(r.readLabels file line.tokens).1.cpu,
        (r.readLabels file line.tokens).1.charmap,
        (Source.takeLabels r.anonymousLabels line.tokens).2.1⟩
        (Source.takeLabels r.anonymousLabels line.tokens).2.2) := by
    rintro phrase hread name once rfl
    simp [lineCall?, hread] at h
  rw [behindLine, standing_reportFaults, readStatements_eq_match]
  cases hout : r.lineOutcome fs load file directory line.tokens with
  | ok x =>
    have hyields : Yields (fun x => x.1.standing = r.standing)
        (r.lineOutcome fs load file directory line.tokens) :=
      .bind_of hphrase fun _ hother => standing_perform hother
    exact hyields x hout
  | error e => exact standing_error (fails_lineOutcome _ _ _ _ _ _ e hout).2

end Standing

/-! ## Files -/

/-- A text whose lines are read: the name of its file, the directory that its includes are relative
to, the characters, and what was read before. -/
structure Opened where
  file : String
  directory : String
  text : List Char
  reading : Reading

namespace Opened

/-- The lines, each with what was read before it. -/
def lines (fs : FileSystem) (load : Loader) (o : Opened) : List (Reading × Source.Line) :=
  reached (behindLine fs load o.file o.directory) o.reading (Source.lines o.text)

/-- What was read at the end of the text. -/
def last (fs : FileSystem) (load : Loader) (o : Opened) : Reading :=
  (Source.lines o.text).foldl (behindLine fs load o.file o.directory) o.reading

/-- The files that the text asks for. -/
def calls (fs : FileSystem) (load : Loader) (o : Opened) : List Call :=
  lineCalls fs load o.file o.directory o.reading (Source.lines o.text)

/-- What was read at every moment of reading a text: before every line, and at the end. -/
def moments (fs : FileSystem) (o : Opened) : List Reading :=
  (o.lines fs (load fs)).map (·.1) ++ [o.last fs (load fs)]

end Opened

namespace Call

/-- The path of a file that is asked for. -/
def path (c : Call) : String :=
  Path.join c.directory c.name

/-- What a path leads to, as far as it matters for inclusion. -/
def key (fs : FileSystem) (c : Call) : FileKey :=
  fs.key c.path

/-- A file is asked for while it is being read, and not skipped because it has been read. -/
def Recursive (fs : FileSystem) (c : Call) : Prop :=
  c.name ≠ standardInput ∧ ¬ (c.once = true ∧ c.key fs ∈ c.reading.loaded) ∧
    c.key fs ∈ c.reading.including

instance (fs : FileSystem) (c : Call) : Decidable (c.Recursive fs) := by
  unfold Recursive
  infer_instance

/-- The report that a file includes itself, where it is asked for. -/
def report (c : Call) : Located Fault :=
  ⟨c.location, .parse (.recursiveInclude c.path)⟩

/-- The text that is read where a file is asked for, or what is read without it. -/
def start (fs : FileSystem) (c : Call) : Except Reading Opened :=
  if c.name = standardInput then
    let r := { c.reading with input := .ok [] }
    match c.reading.input >>= FileSystem.decode with
    | .error e => .error (r.error c.location (.unreadable c.name e))
    | .ok text => .ok ⟨c.name, "", text, r⟩
  else if c.once && c.reading.loaded.contains (c.key fs) then .error c.reading
  else if c.reading.including.contains (c.key fs) then
    .error (c.reading.error c.location (.recursiveInclude c.path))
  else
    let r := { c.reading with loaded := c.key fs :: c.reading.loaded }
    match fs.read c.path >>= FileSystem.decode with
    | .error e => .error (r.error c.location (.unreadable c.path e))
    | .ok text =>
      .ok ⟨c.path, Path.parent c.path, text, { r with including := c.key fs :: r.including }⟩

/-- What is read when a text has been read to its end. -/
def finish (c : Call) (x : Reading × Node) : Reading × Option Node :=
  if c.name = standardInput then (x.1, some x.2)
  else ({ x.1 with including := x.1.including.tail }, some x.2)

end Call

/-- The files being read are the same, and standard input is, too, or it has been read. -/
structure Spends (r r' : Reading) : Prop where
  including : r'.including = r.including
  input : r'.input = r.input ∨ r'.input = .ok []

namespace Spends

variable {r r' r'' : Reading}

theorem refl (r : Reading) : Spends r r :=
  ⟨rfl, .inl rfl⟩

theorem trans (h : Spends r r') (h' : Spends r' r'') : Spends r r'' := by
  refine ⟨h'.including.trans h.including, ?_⟩
  rcases h'.input with hinput | hinput
  · rw [hinput]
    exact h.input
  · exact .inr hinput

theorem of_standing (h : r'.standing = r.standing) : Spends r r' :=
  ⟨congrArg Standing.including h, .inl (congrArg Standing.input h)⟩

end Spends

section Files

variable {fs : FileSystem} {load other : Loader} {c : Call} {o : Opened}

/-- **How a file is read**: its text, if there is one, and behind it the files around it are being
read as before. -/
theorem answer_loadInside (fs : FileSystem) (load : Loader) (c : Call) :
    (loadInside fs load).answer c =
      match c.start fs with
      | .error r => (r, none)
      | .ok o => c.finish (o.reading.readText fs load o.file o.directory c.location o.text) := by
  simp only [Loader.answer, loadInside, Call.start, Call.finish]
  by_cases hname : c.name = standardInput
  · simp only [if_pos hname]
    cases c.reading.input >>= FileSystem.decode <;> rfl
  · simp only [if_neg hname]
    by_cases honce : (c.once && c.reading.loaded.contains (c.key fs)) = true
    · rw [if_pos honce]
      exact if_pos honce
    · rw [if_neg honce]
      refine (if_neg honce).trans ?_
      by_cases hinside : c.reading.including.contains (c.key fs) = true
      · rw [if_pos hinside]
        exact if_pos hinside
      · rw [if_neg hinside]
        refine (if_neg hinside).trans ?_
        simp only [Call.key, Call.path]
        cases fs.read (Path.join c.directory c.name) >>= FileSystem.decode <;> dsimp only

/-- Loaders that agree on the files that a text asks for read the text alike. -/
theorem answer_loadInside_congr
    (h : ∀ o, c.start fs = .ok o → ∀ d ∈ o.calls fs other, load.answer d = other.answer d) :
    (loadInside fs load).answer c = (loadInside fs other).answer c := by
  rw [answer_loadInside, answer_loadInside]
  cases hstart : c.start fs with
  | error r => rfl
  | ok o =>
    have hlines := readLines_congr (h o hstart)
    simp only [readText_eq, hlines]

/-- What can happen where a file is asked for. -/
inductive Call.Starts (fs : FileSystem) (c : Call) : Except Reading Opened → Prop
  | garbled (e : FileError) (hname : c.name = standardInput) :
    Starts fs c (.error ({ c.reading with input := .ok [] }.error c.location
      (.unreadable c.name e)))
  | input (text : List Char) (hname : c.name = standardInput)
    (htext : c.reading.input = .ok [] → text = []) :
    Starts fs c (.ok ⟨c.name, "", text, { c.reading with input := .ok [] }⟩)
  | skipped (honce : c.once = true) (hloaded : c.key fs ∈ c.reading.loaded) :
    Starts fs c (.error c.reading)
  | recursive (h : c.Recursive fs) :
    Starts fs c (.error (c.reading.error c.location (.recursiveInclude c.path)))
  | unreadable (e : FileError) (hother : c.key fs ∉ c.reading.including) :
    Starts fs c (.error ({ c.reading with loaded := c.key fs :: c.reading.loaded }.error c.location
      (.unreadable c.path e)))
  | file (text : List Char) {f : String} (hname : c.name ≠ standardInput)
    (hother : c.key fs ∉ c.reading.including) (hf : f ∈ fs.files) (hkey : c.key fs = .canonical f) :
    Starts fs c (.ok ⟨c.path, Path.parent c.path, text,
      { c.reading with
        loaded := c.key fs :: c.reading.loaded
        including := c.key fs :: c.reading.including }⟩)

theorem starts {x : Except Reading Opened} (h : c.start fs = x) : c.Starts fs x := by
  subst h
  unfold Call.start
  dsimp only
  split
  · rename_i hname
    cases htext : c.reading.input >>= FileSystem.decode with
    | error e => exact .garbled e hname
    | ok text =>
      refine .input text hname fun hinput => ?_
      rw [hinput] at htext
      exact (Except.ok.inj htext).symm
  · rename_i hname
    split
    · rename_i honce
      obtain ⟨honce, hloaded⟩ := Bool.and_eq_true_iff.mp honce
      exact .skipped honce (by simpa using hloaded)
    · rename_i honce
      split
      · rename_i hinside
        exact .recursive ⟨hname, by simpa using honce, by simpa using hinside⟩
      · rename_i hinside
        have hother : c.key fs ∉ c.reading.including := by simpa using hinside
        cases htext : fs.read c.path >>= FileSystem.decode with
        | error e => exact .unreadable e hother
        | ok text =>
          -- Whatever can be read is one of the files.
          cases hread : fs.read c.path with
          | error e =>
            rw [hread] at htext
            cases htext
          | ok bytes =>
            obtain ⟨f, hf, hcanonical⟩ := fs.canonical_mem c.path bytes hread
            refine .file text hname hother hf ?_
            rw [Call.key, FileSystem.key, hcanonical]

/-- Where no text is read, a report is made only if the file is asked for while it is being read. -/
theorem recursions_of_start_error {r : Reading} (h : c.start fs = .error r) :
    r.recursions = c.reading.recursions ++ if c.Recursive fs then [c.report] else [] := by
  cases starts h with
  | recursive hrecursive =>
    rw [if_pos hrecursive]
    exact recursions_error _ _
  | garbled e hname =>
    rw [if_neg fun hrecursive => hrecursive.1 hname]
    exact recursions_error _ _
  | skipped honce hloaded =>
    rw [if_neg fun hrecursive => hrecursive.2.1 ⟨honce, hloaded⟩, List.append_nil]
  | unreadable e hother =>
    rw [if_neg fun hrecursive => hother hrecursive.2.2]
    exact recursions_error _ _

theorem spends_of_start_error {r : Reading} (h : c.start fs = .error r) : Spends c.reading r := by
  cases starts h with
  | garbled e hname => exact ⟨rfl, .inr rfl⟩
  | skipped | recursive | unreadable => exact ⟨rfl, .inl rfl⟩

theorem not_recursive_of_start_ok (h : c.start fs = .ok o) :
    ¬ c.Recursive fs ∧ o.reading.recursions = c.reading.recursions := by
  cases starts h with
  | input text hname => exact ⟨fun hrecursive => hrecursive.1 hname, rfl⟩
  | file text _ hother => exact ⟨fun hrecursive => hother hrecursive.2.2, rfl⟩

theorem nodup_of_start_ok (h : c.start fs = .ok o) (hnodup : c.reading.including.Nodup) :
    o.reading.including.Nodup := by
  cases starts h with
  | input => exact hnodup
  | file text _ hother => exact List.nodup_cons.mpr ⟨hother, hnodup⟩

/-- Behind a text the files are being read that were being read before it. -/
theorem spends_finish (h : c.start fs = .ok o) {x : Reading × Node} (hx : Spends o.reading x.1) :
    Spends c.reading (c.finish x).1 := by
  unfold Call.finish
  cases starts h with
  | input text hname =>
    rw [if_pos hname]
    exact ⟨hx.including, .inr (hx.input.elim id id)⟩
  | file text hname =>
    rw [if_neg hname]
    -- The file is the innermost one again when the last file inside it has been read.
    exact ⟨congrArg List.tail hx.including, hx.input⟩

end Files

/-! ## Files that are left -/

section Rank

variable {fs : FileSystem} {load : Loader} {c d : Call} {o : Opened} {r r' : Reading}

/-- The files that are not being read. -/
def unopened (fs : FileSystem) (including : List FileKey) : List String :=
  fs.files.filter fun f => FileKey.canonical f ∉ including

theorem length_unopened_cons {f : String} {including : List FileKey} (hf : f ∈ fs.files)
    (hother : FileKey.canonical f ∉ including) :
    (unopened fs (.canonical f :: including)).length < (unopened fs including).length := by
  have hfilter : unopened fs (.canonical f :: including) =
      (unopened fs including).filter fun g => g ≠ f := by
    rw [unopened, unopened, List.filter_filter]
    refine List.filter_congr fun g _ => ?_
    simp [not_or]
  rw [hfilter]
  refine List.length_filter_lt_length_iff_exists.mpr ⟨f, ?_, by simp⟩
  exact List.mem_filter.mpr ⟨hf, by simpa using hother⟩

/-- The number of texts that can still be inside: the files that are not being read, and standard
input. -/
def rank (fs : FileSystem) (r : Reading) : Nat :=
  (unopened fs r.including).length +
    match r.input with
    | .ok [] => 0
    | _ => 1

theorem rank_le (fs : FileSystem) (r : Reading) : rank fs r ≤ fs.files.length + 1 := by
  have hfiles : (unopened fs r.including).length ≤ fs.files.length := List.length_filter_le _ _
  unfold rank
  split <;> omega

theorem rank_of_spends (h : Spends r r') : rank fs r' ≤ rank fs r := by
  rcases h.input with hinput | hinput
  · exact Nat.le_of_eq (by rw [rank, rank, h.including, hinput])
  · rw [rank, rank, h.including, hinput]
    exact Nat.le_add_right _ _

/-- A text with lines leaves fewer texts to be inside. -/
theorem rank_of_start (h : c.start fs = .ok o) (htext : o.text ≠ []) :
    rank fs o.reading < rank fs c.reading := by
  cases starts h with
  | input text _ hempty =>
    have hinput : c.reading.input ≠ .ok [] := fun hinput => htext (hempty hinput)
    unfold rank
    dsimp only
    split
    · rename_i hinput'
      exact absurd hinput' hinput
    · exact Nat.lt_succ_self _
  | file text _ hother hf hkey =>
    rw [hkey] at hother
    exact Nat.add_lt_add_right (hkey ▸ length_unopened_cons hf hother) _

end Rank

/-! ## The depth is never reached -/

/-- Files being read stay what they are wherever a file is asked for, and standard input does, too,
or it is read. -/
def Loader.Spending (load : Loader) : Prop :=
  ∀ c, Spends c.reading (load.answer c).1

section Lines

variable {fs : FileSystem} {load : Loader} {c d : Call} {o : Opened}

theorem spends_behindLine (hload : load.Spending) (file directory : String) (r : Reading)
    (line : Source.Line) : Spends r (behindLine fs load file directory r line) := by
  cases hcall : lineCall? file directory r line.tokens with
  | none => exact .of_standing (standing_behindLine_of_none fs load hcall)
  | some c =>
    obtain ⟨hbefore, hbehind⟩ := standing_behindLine_of_call fs load hcall
    exact (Spends.of_standing hbefore).trans ((hload c).trans (.of_standing hbehind))

theorem spends_lines (hload : load.Spending) :
    Spends o.reading (o.last fs load) ∧ ∀ x ∈ o.lines fs load, Spends o.reading x.1 :=
  foldl_invariant (P := Spends o.reading) (.refl _) fun x _ hx =>
    hx.trans (spends_behindLine hload _ _ x.1 x.2)

theorem spends_of_mem_calls (hload : load.Spending) (hd : d ∈ o.calls fs load) :
    Spends o.reading d.reading := by
  obtain ⟨x, hx, hcall⟩ := List.mem_filterMap.mp hd
  obtain ⟨hbefore, -⟩ := standing_behindLine_of_call fs load hcall
  exact ((spends_lines hload).2 x hx).trans (.of_standing hbefore)

theorem spends_readText (hload : load.Spending) (location : Location) :
    Spends o.reading (o.reading.readText fs load o.file o.directory location o.text).1 := by
  have hlast : Spends o.reading (o.last fs load) := (spends_lines hload).1
  rw [Opened.last, ← fst_readLines] at hlast
  rw [readText_eq]
  exact ⟨hlast.including, hlast.input⟩

theorem spending_loadInside (hload : load.Spending) : (loadInside fs load).Spending := by
  intro c
  rw [answer_loadInside]
  cases hstart : c.start fs with
  | error r => exact spends_of_start_error hstart
  | ok o => exact spends_finish hstart (spends_readText hload c.location)

theorem spending_loadWithin (fs : FileSystem) (depth : Nat) : (loadWithin fs depth).Spending := by
  induction depth with
  | zero => exact fun c => .refl c.reading
  | succ depth ih => exact spending_loadInside ih

/-- **Fewer texts are left to be inside** where a text asks for a file. -/
theorem rank_nested (hload : load.Spending) (hstart : c.start fs = .ok o)
    (hd : d ∈ o.calls fs load) : rank fs d.reading < rank fs c.reading := by
  have htext : o.text ≠ [] := by
    intro hempty
    rw [Opened.calls, hempty] at hd
    cases hd
  exact Nat.lt_of_le_of_lt (rank_of_spends (spends_of_mem_calls hload hd))
    (rank_of_start hstart htext)

end Lines

/-- Reads a file with at most `depth` files inside each other, and leaves deeper ones to another
loader. -/
def loadOver (fs : FileSystem) (bottom : Loader) : Nat → Loader
  | 0 => bottom
  | depth + 1 => loadInside fs (loadOver fs bottom depth)

/-- **The depth is never reached** if it is more than the number of texts that can be inside: what
is below does not matter. -/
theorem answer_loadOver {fs : FileSystem} (bottom : Loader) {depth depth' : Nat} {c : Call}
    (h : rank fs c.reading < depth) (h' : rank fs c.reading < depth') :
    (loadOver fs bottom depth).answer c = (loadWithin fs depth').answer c := by
  induction depth generalizing c depth' with
  | zero => exact absurd h (Nat.not_lt_zero _)
  | succ depth ih =>
    cases depth' with
    | zero => exact absurd h' (Nat.not_lt_zero _)
    | succ depth' =>
      -- The files that are asked for inside have a smaller rank, so one level less is enough.
      refine answer_loadInside_congr fun o hstart d hd => ?_
      have hrank := rank_nested (spending_loadWithin fs depth') hstart hd
      exact ih (by omega) (by omega)

theorem loadOver_of_fixed {fs : FileSystem} {load : Loader} (h : load = loadInside fs load)
    (depth : Nat) : loadOver fs load depth = load := by
  induction depth with
  | zero => rfl
  | succ depth ih => rw [loadOver, ih, ← h]

theorem Loader.ext {load other : Loader} (h : ∀ c, load.answer c = other.answer c) :
    load = other := by
  funext location directory name once r
  exact h ⟨location, directory, name, once, r⟩

/-- **Reading files is the only way to read a file** in terms of the files that it asks for. -/
theorem eq_loadInside_iff {fs : FileSystem} {load : Loader} :
    load = loadInside fs load ↔ load = Reading.load fs := by
  have hrank (c : Call) : rank fs c.reading < fs.files.length + 2 :=
    Nat.lt_succ_of_le (rank_le fs c.reading)
  constructor
  · intro hfixed
    refine Loader.ext fun c => ?_
    -- A loader that is its own inside is the same at every depth, and some depth is enough.
    have hanswer := answer_loadOver load (hrank c) (hrank c)
    rwa [loadOver_of_fixed hfixed] at hanswer
  · rintro rfl
    refine Loader.ext fun c => ?_
    -- One more file of depth changes nothing where the depth is enough.
    have hover : ∀ depth, loadOver fs (loadWithin fs 0) depth = loadWithin fs depth := by
      intro depth
      induction depth with
      | zero => rfl
      | succ depth ih => rw [loadOver, ih, loadWithin]
    have hanswer := answer_loadOver (loadWithin fs 0) (hrank c) (Nat.lt_succ_of_lt (hrank c))
    rw [hover] at hanswer
    exact hanswer

theorem load_eq (fs : FileSystem) : load fs = loadInside fs (load fs) :=
  eq_loadInside_iff.mpr rfl

theorem spending_load (fs : FileSystem) : (load fs).Spending :=
  spending_loadWithin fs _

/-- Where files around a text are different they are so at every moment of reading it. -/
theorem Opened.nodup_moments {fs : FileSystem} (o : Opened) (h : o.reading.including.Nodup) :
    ∀ r ∈ o.moments fs, r.including.Nodup := by
  intro r hr
  obtain ⟨hlast, hlines⟩ := spends_lines (o := o) (spending_load fs)
  have hinside : Spends o.reading r := by
    rcases List.mem_append.mp hr with hr | hr
    · obtain ⟨x, hx, rfl⟩ := List.mem_map.mp hr
      exact hlines x hx
    · rw [List.mem_singleton.mp hr]
      exact hlast
  rw [hinside.including]
  exact h

/-! ## All files that are asked for -/

namespace Call

/-- The files that a file asks for. -/
def nested (fs : FileSystem) (c : Call) : List Call :=
  match c.start fs with
  | .error _ => []
  | .ok o => o.calls fs (load fs)

/-- A file asks for another one. -/
def Nested (fs : FileSystem) (d c : Call) : Prop :=
  d ∈ c.nested fs

theorem Nested.rank_lt {fs : FileSystem} {c d : Call} (h : Nested fs d c) :
    rank fs d.reading < rank fs c.reading := by
  unfold Nested nested at h
  split at h
  · cases h
  · rename_i o hstart
    exact rank_nested (spending_load fs) hstart h

/-- **There is an end to files that ask for files.** -/
theorem wellFounded_nested (fs : FileSystem) : WellFounded (Nested fs) :=
  Subrelation.wf (fun h => h.rank_lt) (measure fun c : Call => rank fs c.reading).wf

/-- A file that is asked for, and all files that are asked for before its end, in order. -/
def made (fs : FileSystem) (c : Call) : List Call :=
  c :: (c.nested fs).attach.flatMap fun d => made fs d.1
termination_by rank fs c.reading
decreasing_by exact Nested.rank_lt d.2

theorem made_eq (fs : FileSystem) (c : Call) :
    c.made fs = c :: (c.nested fs).flatMap (made fs) := by
  rw [made, ← List.flatMap_map, List.attach_map_subtype_val]

/-- What was read at every moment of reading a file, apart from the files that it asks for: before
it, within its text, and behind it. -/
def moments (fs : FileSystem) (c : Call) : List Reading :=
  c.reading :: (match c.start fs with | .error _ => [] | .ok o => o.moments fs) ++
    [((load fs).answer c).1]

variable {fs : FileSystem} {c d : Call}

/-- What is so where a file is asked for, and stays so where the file asks for files, is so wherever
a file is asked for before its end. -/
theorem forall_made {P : Call → Prop} (hnested : ∀ c d, Nested fs d c → P c → P d) (hc : P c) :
    ∀ d ∈ c.made fs, P d := by
  induction c using (wellFounded_nested fs).induction with
  | h c ih =>
    intro d hd
    rw [made_eq, List.mem_cons, List.mem_flatMap] at hd
    rcases hd with rfl | ⟨e, he, hd⟩
    · exact hc
    · exact ih e he (hnested c e he hc) d hd

/-- **Files inside each other are different** wherever a file is asked for. -/
theorem nodup_made (h : c.reading.including.Nodup) :
    ∀ d ∈ c.made fs, d.reading.including.Nodup := by
  refine forall_made (fun c d hd hc => ?_) h
  unfold Nested nested at hd
  split at hd
  · cases hd
  · rename_i o hstart
    rw [(spends_of_mem_calls (spending_load fs) hd).including]
    exact nodup_of_start_ok hstart hc

/-- Files inside each other are different at every moment. -/
theorem nodup_moments (h : c.reading.including.Nodup) :
    ∀ r ∈ c.moments fs, r.including.Nodup := by
  intro r hr
  rw [moments, List.mem_append, List.mem_cons, List.mem_singleton] at hr
  rcases hr with (rfl | hr) | rfl
  · exact h
  · split at hr
    · cases hr
    · rename_i o hstart
      exact o.nodup_moments (nodup_of_start_ok hstart h) r hr
  · rw [(spending_load fs c).including]
    exact h

end Call

/-! ## Reports -/

section Reports

variable {fs : FileSystem} {load : Loader} {c : Call}

/-- The reports of files that lines ask for are the reports of the lines. -/
theorem recursions_lines {file directory : String} {reports : Call → List (Located Fault)}
    {r : Reading} {lines : List Source.Line}
    (h : ∀ d ∈ lineCalls fs load file directory r lines,
      (load.answer d).1.recursions = d.reading.recursions ++ reports d) :
    (lines.foldl (behindLine fs load file directory) r).recursions =
      r.recursions ++ (lineCalls fs load file directory r lines).flatMap reports := by
  induction lines generalizing r with
  | nil => exact (List.append_nil _).symm
  | cons line rest ih =>
    rw [lineCalls_cons] at h ⊢
    have hrest := ih fun d hd => h d (List.mem_append_right _ hd)
    rw [List.foldl_cons, hrest, List.flatMap_append, ← List.append_assoc]
    congr 1
    cases hcall : lineCall? file directory r line.tokens with
    | none =>
      have hline := congrArg Standing.recursions (standing_behindLine_of_none fs load hcall)
      exact hline.trans (List.append_nil _).symm
    | some d =>
      obtain ⟨hbefore, hbehind⟩ := standing_behindLine_of_call fs load hcall
      have hsame : d.reading.recursions = r.recursions := congrArg Standing.recursions hbefore
      have hd := h d (List.mem_append_left _ (Option.mem_toList.mpr hcall))
      calc (behindLine fs load file directory r line).recursions
          = (load.answer d).1.recursions := congrArg Standing.recursions hbehind
        _ = d.reading.recursions ++ reports d := hd
        _ = r.recursions ++ (some d).toList.flatMap reports := by simp [hsame]

namespace Call

/-- The reports of files that are asked for while they are being read. -/
def reports (fs : FileSystem) (calls : List Call) : List (Located Fault) :=
  (calls.filter fun d => d.Recursive fs).map report

theorem reports_append (first second : List Call) :
    reports fs (first ++ second) = reports fs first ++ reports fs second := by
  rw [reports, List.filter_append, List.map_append]
  rfl

theorem reports_flatMap {α : Type} (l : List α) (f : α → List Call) :
    reports fs (l.flatMap f) = l.flatMap fun a => reports fs (f a) := by
  rw [reports, List.filter_flatMap, List.map_flatMap]
  rfl

theorem reports_singleton (c : Call) :
    reports fs [c] = if c.Recursive fs then [c.report] else [] := by
  unfold reports
  split <;> simp [*]

end Call

/-- What a text reports is what the files report that it asks for. -/
theorem recursions_readText {o : Opened}
    (h : ∀ d ∈ o.calls fs (Reading.load fs), ((Reading.load fs).answer d).1.recursions =
      d.reading.recursions ++ Call.reports fs (d.made fs)) (location : Location) :
    (o.reading.readText fs (Reading.load fs) o.file o.directory location o.text).1.recursions =
      o.reading.recursions ++
        Call.reports fs ((o.calls fs (Reading.load fs)).flatMap (Call.made fs)) := by
  have hlines := recursions_lines h
  rw [← fst_readLines, ← Call.reports_flatMap] at hlines
  rw [readText_eq]
  exact hlines

/-- **A file that includes itself is reported** where it is asked for, and nothing else is. -/
theorem recursions_answer (fs : FileSystem) (c : Call) :
    ((Reading.load fs).answer c).1.recursions =
      c.reading.recursions ++ Call.reports fs (c.made fs) := by
  -- Nested calls are well founded, so the files inside are known to report what they should.
  induction c using (Call.wellFounded_nested fs).induction with
  | h c ih =>
    rw [load_eq, answer_loadInside, Call.made_eq, ← List.singleton_append, Call.reports_append,
      Call.reports_singleton]
    cases hstart : c.start fs with
    | error r =>
      have hnested : c.nested fs = [] := by rw [Call.nested, hstart]
      rw [hnested, recursions_of_start_error hstart]
      simp [Call.reports]
    | ok o =>
      obtain ⟨hother, hopened⟩ := not_recursive_of_start_ok hstart
      have hnested : c.nested fs = o.calls fs (Reading.load fs) := by rw [Call.nested, hstart]
      have hfinish (x : Reading × Node) : (c.finish x).1.recursions = x.1.recursions := by
        unfold Call.finish
        split <;> rfl
      have hinside : ∀ d ∈ o.calls fs (Reading.load fs), Call.Nested fs d c := by
        intro d hd
        rw [Call.Nested, hnested]
        exact hd
      rw [hfinish, recursions_readText fun d hd => ih d (hinside d hd), hopened, hnested,
        if_neg hother, List.nil_append]

end Reports

end Reading

/-! ## Sources -/

namespace Source

open Reading (Call Opened)

namespace Input

/-- All files that are asked for while a source is read. -/
def calls (fs : FileSystem) (r : Reading) : Input → List Call
  | .text name contents directory =>
    (Opened.calls fs (Reading.load fs) ⟨name, directory, contents, r⟩).flatMap (Call.made fs)
  | .file path => Call.made fs ⟨.topLevel, "", path, false, r⟩

/-- What was read at every moment of reading a source. -/
def moments (fs : FileSystem) (r : Reading) (input : Input) : List Reading :=
  (match input with
    | .text name contents directory => Opened.moments fs ⟨name, directory, contents, r⟩
    | .file _ => []) ++
  (input.calls fs r).flatMap (Call.moments fs)

variable {fs : FileSystem} {r : Reading}

theorem including_read (input : Input) : (input.read fs r).1.including = r.including := by
  cases input with
  | text name contents directory =>
    have hread : Reading.Spends r
        (r.readText fs (Reading.load fs) name directory .topLevel contents).1 :=
      Reading.spends_readText (o := ⟨name, directory, contents, r⟩) (Reading.spending_load fs) _
    simpa only [read] using hread.including
  | file path =>
    have hread := (Reading.spending_load fs ⟨.topLevel, "", path, false, r⟩).including
    simpa only [read, Reading.Loader.answer] using hread

theorem recursions_read (input : Input) :
    (input.read fs r).1.recursions = r.recursions ++ Call.reports fs (input.calls fs r) := by
  cases input with
  | text name contents directory =>
    have hread := Reading.recursions_readText (o := ⟨name, directory, contents, r⟩)
      (fun d _ => Reading.recursions_answer fs d) .topLevel
    simpa only [read, calls] using hread
  | file path =>
    have hread := Reading.recursions_answer fs ⟨.topLevel, "", path, false, r⟩
    simpa only [read, calls, Reading.Loader.answer] using hread

/-- Files inside each other are different wherever a file is asked for. -/
theorem nodup_calls (h : r.including.Nodup) (input : Input) :
    ∀ c ∈ input.calls fs r, c.reading.including.Nodup := by
  cases input with
  | text name contents directory =>
    intro c hc
    obtain ⟨d, hd, hc⟩ := List.mem_flatMap.mp hc
    have hinside := (Reading.spends_of_mem_calls (Reading.spending_load fs) hd).including
    exact Call.nodup_made (hinside ▸ h) c hc
  | file path => exact Call.nodup_made h

theorem nodup_moments (h : r.including.Nodup) (input : Input) :
    ∀ r' ∈ input.moments fs r, r'.including.Nodup := by
  intro r' hr'
  rcases List.mem_append.mp hr' with hr' | hr'
  · cases input with
    | text name contents directory => exact Opened.nodup_moments _ h r' hr'
    | file path => cases hr'
  · obtain ⟨c, hc, hr'⟩ := List.mem_flatMap.mp hr'
    exact Call.nodup_moments (nodup_calls h input c hc) r' hr'

end Input

/-- Sources, each with what was read before it. -/
def along (fs : FileSystem) (r : Reading) (inputs : List Input) : List (Reading × Input) :=
  reached (fun r input => (Input.read fs r input).1) r inputs

/-- All files that are asked for while sources are read, in order. -/
def calls (fs : FileSystem) (r : Reading) (inputs : List Input) : List Call :=
  (along fs r inputs).flatMap fun x => x.2.calls fs x.1

theorem recursions_readAll (fs : FileSystem) (r : Reading) (inputs : List Input) :
    (readAll fs r inputs).1.recursions = r.recursions ++ Call.reports fs (calls fs r inputs) := by
  induction inputs generalizing r with
  | nil => exact (List.append_nil _).symm
  | cons input rest ih =>
    have hrest := ih (input.read fs r).1
    rw [input.recursions_read, List.append_assoc, ← Call.reports_append] at hrest
    exact hrest

/-- **Inclusion ends.** Whatever the files ask for, reading a file has a result, and it is the only
way to read files in terms of the files that they ask for: there is an end to files that ask for
files. Whichever sources are read, the files being read are different at every moment, and behind
each file they are those that were being read before it. That a file includes itself is reported,
where it is asked for, exactly if it is asked for while it is being read and is not skipped. -/
theorem inclusion_ends (cpu : Cpu) (fs : FileSystem) (stdin : Except FileError (List UInt8))
    (inputs : List Input) :
    let r : Reading := { cpu, input := stdin }
    (∀ load : Reading.Loader, load = Reading.loadInside fs load ↔ load = Reading.load fs) ∧
      WellFounded (Call.Nested fs) ∧
      (∀ x ∈ along fs r inputs, ∀ r' ∈ x.2.moments fs x.1, r'.including.Nodup) ∧
      (∀ c ∈ calls fs r inputs, ((Reading.load fs).answer c).1.including = c.reading.including) ∧
      (read cpu fs stdin inputs).diagnostics.errors.filter (·.value.isRecursive) =
        ((calls fs r inputs).filter fun c => c.Recursive fs).map Call.report := by
  intro r
  refine ⟨fun load => Reading.eq_loadInside_iff, Call.wellFounded_nested fs, fun x hx => ?_,
    fun c _ => (Reading.spending_load fs c).including, recursions_readAll fs r inputs⟩
  have hnodup : ∀ x ∈ along fs r inputs, x.1.including.Nodup :=
    (foldl_invariant (P := fun r : Reading => r.including.Nodup) List.nodup_nil fun x _ hx => by
      rw [Input.including_read]
      exact hx).2
  exact Input.nodup_moments (hnodup x hx) x.2

/-- A file that includes itself. -/
def selfIncluding : FileSystem where
  canonical? path := if path = "a" then some "/a" else none
  read path := if path = "a" then .ok ".include \"a\"\n".toUTF8.data.toList else .error .notFound
  files := ["/a"]
  canonical_mem path bytes h := by
    split at h
    · exact ⟨"/a", List.mem_singleton_self _, by simp [*]⟩
    · cases h

example : (read .mos6502 selfIncluding (.ok []) [.file "a"]).diagnostics.errors =
    [⟨.source "a" 1 1, .parse (.recursiveInclude "a")⟩] := by
  decide +kernel

end Source
end Assembler6502
