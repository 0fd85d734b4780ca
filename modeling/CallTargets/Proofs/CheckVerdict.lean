import CallTargets.Command.Check
import Mathlib.Data.List.Forall2

/-!
# The verdict of a check

A report is read up to its first line that cannot be read, and two reports are compared up to
the first place where they part.  Both are said here of the lists of lines, without the loops
that find them; what a check prints and its exit code follow.
-/

namespace CallTargets

/-- Two report lines with the same number and the same names, each as often. -/
def ReportLine.Agrees (a b : ReportLine) : Prop := a.number = b.number ∧ a.names.Perm b.names

theorem ReportLine.same_iff_agrees {a b : ReportLine} : a.Same b ↔ a.Agrees b :=
  and_congr_right fun _ => sortedNames_eq_iff

namespace Report

variable {strict : Bool} {lines : List String} {ls : List ReportLine}

/-! ## Reading -/

/-- Each line is read as the report line in its place. -/
def Reads (strict : Bool) (lines : List String) (ls : List ReportLine) : Prop :=
  List.Forall₂ (fun line l => ReportLine.parse strict line = .ok l) lines ls

/-- Some line cannot be read. -/
def Unreadable (strict : Bool) (lines : List String) : Prop :=
  ∃ line ∈ lines, ∃ error, ReportLine.parse strict line = .error error

/-- The lines before the one that the error names can be read, and this one cannot.  The first
of all lines has the number `start`. -/
inductive FirstFault (strict : Bool) (start : Nat) : List String → ReportError → Prop where
  | intro {before : List String} {read : List ReportLine} {line : String} {error : LineError}
      (hbefore : Reads strict before read)
      (hline : ReportLine.parse strict line = .error error) (after : List String) :
      FirstFault strict start (before ++ line :: after) ⟨start + before.length, line, error⟩

theorem parseFrom_append {before : List String} {read : List ReportLine}
    (h : Reads strict before read) (start : Nat) (rest : List String) :
    parseFrom strict start (before ++ rest) =
      (parseFrom strict (start + before.length) rest).map (read ++ ·) := by
  induction h generalizing start with
  | nil => cases hrest : parseFrom strict start rest <;> simp [hrest, Except.map]
  | @cons line l before read hline _ ih =>
      have hnumber : start + 1 + before.length = start + (line :: before).length := by
        rw [List.length_cons]
        omega
      rw [List.cons_append, parseFrom, hline, ih, hnumber]
      cases parseFrom strict (start + (line :: before).length) rest <;> rfl

theorem parseFrom_of_reads (h : Reads strict lines ls) (start : Nat) :
    parseFrom strict start lines = .ok ls := by
  have hread := parseFrom_append h start []
  simpa [parseFrom, Except.map] using hread

theorem FirstFault.parseFrom {start : Nat} {e : ReportError}
    (h : FirstFault strict start lines e) : parseFrom strict start lines = .error e := by
  obtain ⟨hbefore, hline, after⟩ := h
  rw [parseFrom_append hbefore, Report.parseFrom, hline]
  rfl

theorem FirstFault.mem {start : Nat} {e : ReportError}
    (h : FirstFault strict start lines e) :
    e.line ∈ lines ∧ ReportLine.parse strict e.line = .error e.error := by
  obtain ⟨-, hline, after⟩ := h
  exact ⟨by simp, hline⟩

theorem reads_or_fault (strict : Bool) (start : Nat) (lines : List String) :
    (∃ ls, Reads strict lines ls) ∨
      ∃ e, FirstFault strict start lines e := by
  induction lines generalizing start with
  | nil => exact Or.inl ⟨[], .nil⟩
  | cons line rest ih =>
      cases hline : ReportLine.parse strict line with
      | error error => exact Or.inr ⟨_, .intro .nil hline rest⟩
      | ok l =>
          rcases ih (start + 1) with ⟨ls, hls⟩ | ⟨e, ⟨hbefore, hfault, after⟩⟩
          · exact Or.inl ⟨l :: ls, .cons hline hls⟩
          · exact Or.inr ⟨_, .intro (.cons hline hbefore) hfault after⟩

theorem parse_eq_ok_iff {text : String} :
    parse strict text = .ok ls ↔ Reads strict (Text.lines text) ls := by
  constructor
  · intro h
    rcases reads_or_fault strict 1 (Text.lines text) with ⟨ls', hls'⟩ | ⟨e, he⟩
    · have heq := h.symm.trans (parseFrom_of_reads hls' 1)
      cases heq
      exact hls'
    · cases h.symm.trans he.parseFrom
  · exact fun h => parseFrom_of_reads h 1

theorem parse_eq_error_iff {text : String} {e : ReportError} :
    parse strict text = .error e ↔ FirstFault strict 1 (Text.lines text) e := by
  constructor
  · intro h
    rcases reads_or_fault strict 1 (Text.lines text) with ⟨ls, hls⟩ | ⟨e', he'⟩
    · cases h.symm.trans (parseFrom_of_reads hls 1)
    · have heq := h.symm.trans he'.parseFrom
      cases heq
      exact he'
  · exact FirstFault.parseFrom

theorem Reads.not_unreadable (h : Reads strict lines ls) : ¬ Unreadable strict lines := by
  rintro ⟨line, hmem, error, hline⟩
  induction h with
  | nil => cases hmem
  | cons hread _ ih =>
      rcases List.mem_cons.mp hmem with rfl | hmem
      · cases hline.symm.trans hread
      · exact ih hmem

theorem unreadable_iff {text : String} :
    Unreadable strict (Text.lines text) ↔ ∃ e, parse strict text = .error e := by
  constructor
  · intro h
    rcases reads_or_fault strict 1 (Text.lines text) with ⟨ls, hls⟩ | ⟨e, he⟩
    · exact absurd h hls.not_unreadable
    · exact ⟨e, he.parseFrom⟩
  · rintro ⟨e, he⟩
    obtain ⟨hmem, herror⟩ := (parse_eq_error_iff.mp he).mem
    exact ⟨e.line, hmem, e.error, herror⟩

/-! ## Comparing -/

/-- The lines before the number of a mismatch agree, and those that the mismatch tells of come
next.  The first lines have the number `start`. -/
inductive FirstMismatch (start : Nat) : List ReportLine → List ReportLine → Mismatch → Prop where
  | wrongLine {before before' : List ReportLine} {y a : ReportLine}
      (hbefore : List.Forall₂ ReportLine.Agrees before before') (hdiffer : ¬ y.Agrees a)
      (rest rest' : List ReportLine) :
      FirstMismatch start (before ++ y :: rest) (before' ++ a :: rest')
        (.wrongLine (start + before.length) y a)
  | moreThanAnswer {before before' : List ReportLine}
      (hbefore : List.Forall₂ ReportLine.Agrees before before') (y : ReportLine)
      (rest : List ReportLine) :
      FirstMismatch start (before ++ y :: rest) before'
        (.moreThanAnswer (start + before.length) y)
  | lessThanAnswer {before before' : List ReportLine}
      (hbefore : List.Forall₂ ReportLine.Agrees before before') (a : ReportLine)
      (rest' : List ReportLine) :
      FirstMismatch start before (before' ++ a :: rest')
        (.lessThanAnswer (start + before.length) a)

theorem checkFrom_append {before before' : List ReportLine}
    (h : List.Forall₂ ReportLine.Agrees before before') (start : Nat)
    (rest rest' : List ReportLine) :
    checkFrom start (before ++ rest) (before' ++ rest') =
      checkFrom (start + before.length) rest rest' := by
  induction h generalizing start with
  | nil => rfl
  | @cons y a before before' hagree _ ih =>
      have hnumber : start + 1 + before.length = start + (y :: before).length := by
        rw [List.length_cons]
        omega
      rw [List.cons_append, List.cons_append, checkFrom,
        if_pos (ReportLine.same_iff_agrees.mpr hagree), ih, hnumber]

theorem checkFrom_of_agree {yours answer : List ReportLine}
    (h : List.Forall₂ ReportLine.Agrees yours answer) (start : Nat) :
    checkFrom start yours answer = .ok () := by
  have hcheck := checkFrom_append h start [] []
  simpa [checkFrom] using hcheck

theorem FirstMismatch.checkFrom {start : Nat} {yours answer : List ReportLine} {m : Mismatch}
    (h : FirstMismatch start yours answer m) : checkFrom start yours answer = .error m := by
  cases h with
  | wrongLine hbefore hdiffer rest rest' =>
      rw [checkFrom_append hbefore, Report.checkFrom,
        if_neg (ReportLine.same_iff_agrees.not.mpr hdiffer)]
  | moreThanAnswer hbefore y rest =>
      have hcheck := checkFrom_append hbefore start (y :: rest) []
      rwa [List.append_nil] at hcheck
  | lessThanAnswer hbefore a rest' =>
      have hcheck := checkFrom_append hbefore start [] (a :: rest')
      rwa [List.append_nil] at hcheck

theorem agree_or_mismatch (start : Nat) (yours answer : List ReportLine) :
    List.Forall₂ ReportLine.Agrees yours answer ∨ ∃ m, FirstMismatch start yours answer m := by
  induction yours generalizing start answer with
  | nil =>
      cases answer with
      | nil => exact Or.inl .nil
      | cons a rest' => exact Or.inr ⟨_, .lessThanAnswer .nil a rest'⟩
  | cons y rest ih =>
      cases answer with
      | nil => exact Or.inr ⟨_, .moreThanAnswer .nil y rest⟩
      | cons a rest' =>
          by_cases hagree : y.Agrees a
          · rcases ih (start + 1) rest' with hrest | ⟨m, hm⟩
            · exact Or.inl (.cons hagree hrest)
            · right
              cases hm with
              | wrongLine hbefore hdiffer rest rest' =>
                  exact ⟨_, .wrongLine (.cons hagree hbefore) hdiffer rest rest'⟩
              | moreThanAnswer hbefore y' rest =>
                  exact ⟨_, .moreThanAnswer (.cons hagree hbefore) y' rest⟩
              | lessThanAnswer hbefore a' rest' =>
                  exact ⟨_, .lessThanAnswer (.cons hagree hbefore) a' rest'⟩
          · exact Or.inr ⟨_, .wrongLine .nil hagree rest rest'⟩

variable {yours answer : List ReportLine}

theorem check_eq_ok_iff :
    check yours answer = .ok () ↔ List.Forall₂ ReportLine.Agrees yours answer := by
  constructor
  · intro h
    rcases agree_or_mismatch 1 yours answer with hagree | ⟨m, hm⟩
    · exact hagree
    · cases h.symm.trans hm.checkFrom
  · exact fun h => checkFrom_of_agree h 1

theorem check_eq_error_iff {m : Mismatch} :
    check yours answer = .error m ↔ FirstMismatch 1 yours answer m := by
  constructor
  · intro h
    rcases agree_or_mismatch 1 yours answer with hagree | ⟨m', hm'⟩
    · cases h.symm.trans (checkFrom_of_agree hagree 1)
    · have heq := h.symm.trans hm'.checkFrom
      cases heq
      exact hm'
  · exact FirstMismatch.checkFrom

end Report

/-! ## Exit codes -/

namespace CheckRequest

open Report (Reads Unreadable FirstFault FirstMismatch)

variable {r : CheckRequest} {report answer stdout : String} {code : Nat}

/-- The report is compared with the answer, and both can be read. -/
structure Compares (r : CheckRequest) (report answer : String) (yours theirs : List ReportLine) :
    Prop where
  not_formatOnly : r.formatOnly = false
  standard : r.standard.isSome
  report : Reads r.strict (Text.lines report) yours
  answer : Reads r.strict (Text.lines answer) theirs

/-- The exit code that a check has to give, and what it has to print, for the texts of the report
and of the answer. -/
inductive Verdict (r : CheckRequest) (report answer : String) : Nat → String → Prop where
  | usage (hformat : r.formatOnly = false) (hstandard : r.standard = none) :
      Verdict r report answer 255 ""
  | reportFormat {e : ReportError} (hasks : r.formatOnly ∨ r.standard.isSome)
      (he : FirstFault r.strict 1 (Text.lines report) e) :
      Verdict r report answer 4 ("Input file format error\n" ++ e.message ++ "\n")
  | formatOnly {yours : List ReportLine} (hformat : r.formatOnly)
      (hyours : Reads r.strict (Text.lines report) yours) : Verdict r report answer 0 ""
  | answerFormat {yours : List ReportLine} {e : ReportError} (hformat : r.formatOnly = false)
      (hstandard : r.standard.isSome) (hyours : Reads r.strict (Text.lines report) yours)
      (he : FirstFault r.strict 1 (Text.lines answer) e) :
      Verdict r report answer 5 ("Answer file format error\n" ++ e.message ++ "\n")
  | correct {yours theirs : List ReportLine} (h : r.Compares report answer yours theirs)
      (hagree : List.Forall₂ ReportLine.Agrees yours theirs) :
      Verdict r report answer 0 "Correct\n"
  | wrongLine {yours theirs : List ReportLine} {number : Nat} {y a : ReportLine}
      (h : r.Compares report answer yours theirs)
      (hm : FirstMismatch 1 yours theirs (.wrongLine number y a)) :
      Verdict r report answer 1 ((Mismatch.wrongLine number y a).message ++ "\n\n")
  | moreThanAnswer {yours theirs : List ReportLine} {number : Nat} {y : ReportLine}
      (h : r.Compares report answer yours theirs)
      (hm : FirstMismatch 1 yours theirs (.moreThanAnswer number y)) :
      Verdict r report answer 2 ((Mismatch.moreThanAnswer number y).message ++ "\n\n")
  | lessThanAnswer {yours theirs : List ReportLine} {number : Nat} {a : ReportLine}
      (h : r.Compares report answer yours theirs)
      (hm : FirstMismatch 1 yours theirs (.lessThanAnswer number a)) :
      Verdict r report answer 3 ((Mismatch.lessThanAnswer number a).message ++ "\n\n")

/-- A comparison that finds a mismatch has a verdict of its kind. -/
theorem Compares.verdict {yours theirs : List ReportLine} {m : Mismatch}
    (h : r.Compares report answer yours theirs) (hm : FirstMismatch 1 yours theirs m) :
    Verdict r report answer m.exitCode.code (m.message ++ "\n\n") := by
  cases m with
  | wrongLine number y a => exact .wrongLine h hm
  | moreThanAnswer number y => exact .moreThanAnswer h hm
  | lessThanAnswer number a => exact .lessThanAnswer h hm

theorem exists_verdict (r : CheckRequest) (report answer : String) :
    ∃ code stdout, Verdict r report answer code stdout := by
  rcases Report.reads_or_fault r.strict 1 (Text.lines report) with ⟨yours, hyours⟩ | ⟨e, he⟩
  · cases hformat : r.formatOnly with
    | true => exact ⟨_, _, .formatOnly hformat hyours⟩
    | false =>
        cases hstandard : r.standard with
        | none => exact ⟨_, _, .usage hformat hstandard⟩
        | some path =>
            have hgiven : r.standard.isSome := by simp [hstandard]
            rcases Report.reads_or_fault r.strict 1 (Text.lines answer) with
              ⟨theirs, htheirs⟩ | ⟨e, he⟩
            · have hcompares : r.Compares report answer yours theirs :=
                ⟨hformat, hgiven, hyours, htheirs⟩
              rcases Report.agree_or_mismatch 1 yours theirs with hagree | ⟨m, hm⟩
              · exact ⟨_, _, .correct hcompares hagree⟩
              · exact ⟨_, _, hcompares.verdict hm⟩
            · exact ⟨_, _, .answerFormat hformat hgiven hyours he⟩
  · by_cases hasks : r.formatOnly ∨ r.standard.isSome
    · exact ⟨_, _, .reportFormat hasks he⟩
    · obtain ⟨hformat, hstandard⟩ := not_or.mp hasks
      exact ⟨_, _, .usage (by simpa using hformat) (by simpa using hstandard)⟩

/-! ## What the command does -/

variable {read : String → Except FileError String} {yours theirs : List ReportLine}

theorem outcome_of_unreadable (hreport : read r.file = .ok report)
    (hasks : r.formatOnly ∨ r.standard.isSome) {e : ReportError}
    (he : Report.parse r.strict report = .error e) :
    (r.outcome read).exitCode = .reportFormat ∧
      (r.outcome read).stdout = "Input file format error\n" ++ e.message ++ "\n" := by
  have hasked : ¬ (r.formatOnly = false ∧ r.standard = none) := by
    rintro ⟨hformat, hstandard⟩
    simp [hformat, hstandard] at hasks
  simp [outcome, hasked, Report.ofFile, hreport, he, SourceError.message]

theorem outcome_of_compared (hreport : read r.file = .ok report)
    (hanswer : ∀ path, r.standard = some path → read path = .ok answer)
    (hformat : r.formatOnly = false) (hstandard : r.standard.isSome)
    (hyours : Report.parse r.strict report = .ok yours) :
    (r.outcome read).exitCode = (compare r.strict yours (.ok answer)).exitCode ∧
      (r.outcome read).stdout = (compare r.strict yours (.ok answer)).stdout := by
  obtain ⟨path, hpath⟩ := Option.isSome_iff_exists.mp hstandard
  simp [outcome, hformat, hpath, Report.ofFile, hreport, hyours, hanswer path hpath]

theorem Compares.outcome (h : r.Compares report answer yours theirs)
    (hreport : read r.file = .ok report)
    (hanswer : ∀ path, r.standard = some path → read path = .ok answer) :
    (∀ m, Report.check yours theirs = .error m →
      (r.outcome read).exitCode = m.exitCode ∧ (r.outcome read).stdout = m.message ++ "\n\n") ∧
    (Report.check yours theirs = .ok () →
      (r.outcome read).exitCode = .correct ∧ (r.outcome read).stdout = "Correct\n") := by
  have hyours := Report.parse_eq_ok_iff.mpr h.report
  have htheirs := Report.parse_eq_ok_iff.mpr h.answer
  obtain ⟨hexit, hout⟩ :=
    outcome_of_compared hreport hanswer h.not_formatOnly h.standard hyours
  rw [hexit, hout]
  constructor
  · intro m hm
    simp [compare, Report.ofFile, htheirs, hm]
  · intro hagree
    simp [compare, Report.ofFile, htheirs, hagree]

theorem Verdict.outcome (h : Verdict r report answer code stdout)
    (hreport : read r.file = .ok report)
    (hanswer : ∀ path, r.standard = some path → read path = .ok answer) :
    (r.outcome read).exitCode.code = code ∧ (r.outcome read).stdout = stdout := by
  cases h with
  | usage hformat hstandard =>
      simp [CheckRequest.outcome, hformat, hstandard, ExitCode.code]
  | reportFormat hasks he =>
      obtain ⟨hexit, hout⟩ :=
        outcome_of_unreadable hreport hasks (Report.parse_eq_error_iff.mpr he)
      exact ⟨by rw [hexit]; rfl, hout⟩
  | formatOnly hformat hyours =>
      have hparse := Report.parse_eq_ok_iff.mpr hyours
      simp [CheckRequest.outcome, hformat, Report.ofFile, hreport, hparse, ExitCode.code]
  | answerFormat hformat hstandard hyours he =>
      have hparse := Report.parse_eq_ok_iff.mpr hyours
      have hfault := Report.parse_eq_error_iff.mpr he
      obtain ⟨hexit, hout⟩ := outcome_of_compared hreport hanswer hformat hstandard hparse
      rw [hexit, hout]
      simp [compare, Report.ofFile, hfault, SourceError.message, ExitCode.code]
  | correct h hagree =>
      obtain ⟨hexit, hout⟩ :=
        (h.outcome hreport hanswer).2 (Report.check_eq_ok_iff.mpr hagree)
      exact ⟨by rw [hexit]; rfl, hout⟩
  | wrongLine h hm | moreThanAnswer h hm | lessThanAnswer h hm =>
      obtain ⟨hexit, hout⟩ :=
        (h.outcome hreport hanswer).1 _ (Report.check_eq_error_iff.mpr hm)
      exact ⟨by rw [hexit]; rfl, hout⟩

theorem verdict_iff (hreport : read r.file = .ok report)
    (hanswer : ∀ path, r.standard = some path → read path = .ok answer) :
    Verdict r report answer code stdout ↔
      (r.outcome read).exitCode.code = code ∧ (r.outcome read).stdout = stdout := by
  constructor
  · exact fun h => h.outcome hreport hanswer
  · rintro ⟨rfl, rfl⟩
    obtain ⟨code, stdout, h⟩ := exists_verdict r report answer
    obtain ⟨hcode, hout⟩ := h.outcome hreport hanswer
    rwa [hcode, hout]

end CheckRequest

/-- A report with an unreadable line has a first one, which is the one that its reader names; two
reports that differ have a first mismatch, which is the one that their comparison names.  A check
of readable files without a log gives the exit code and prints the text that these and its
settings call for, and nothing else. -/
theorem check_verdict_exact :
    (∀ strict text, Report.Unreadable strict (Text.lines text) ↔
      ∃ e, Report.FirstFault strict 1 (Text.lines text) e) ∧
    (∀ strict text e, Report.parse strict text = .error e ↔
      Report.FirstFault strict 1 (Text.lines text) e) ∧
    (∀ yours answer m, Report.check yours answer = .error m ↔
      Report.FirstMismatch 1 yours answer m) ∧
    ∀ (c : Command) (fs : Files) (report answer : String), c.log = none →
      fs.readText c.check.file = .ok report →
      (∀ path, c.check.standard = some path → fs.readText path = .ok answer) →
      ∀ code stdout, c.check.Verdict report answer code stdout ↔
        (c.run fs).1.exitCode.code = code ∧ (c.run fs).1.stdout = stdout := by
  refine ⟨fun strict text => ?_, fun _ _ _ => Report.parse_eq_error_iff,
    fun _ _ _ => Report.check_eq_error_iff, ?_⟩
  · rw [Report.unreadable_iff]
    exact exists_congr fun e => Report.parse_eq_error_iff
  · intro c fs report answer hlog hreport hanswer code stdout
    have hrun : (c.run fs).1 = c.check.outcome fs.readText := by rw [Command.run, hlog]
    rw [hrun]
    exact CheckRequest.verdict_iff hreport hanswer

theorem Files.readText_of_read {fs : Files} {path text : String}
    (h : fs.read path = .ok text.toUTF8) : fs.readText path = .ok text := by
  have htext : String.fromUTF8? text.toUTF8 = some text := by
    have hvalid : text.toUTF8.IsValidUTF8 := text.isValidUTF8
    rw [String.fromUTF8?, dif_pos hvalid]
    rfl
  simp only [readText, h, bind, Except.bind, htext]
  rfl

/-- A report that has lost one of two equal names of its answer. -/
def shelf : Files :=
  ⟨[(["yours"], .file "1 : f, g\n2 : h\n".toUTF8), (["std"], .file "1 : g, f\n2 : h, h\n".toUTF8)]⟩

theorem check_verdict_exact_shelf :
    let c : Command := ⟨none, false, ⟨"yours", some "std", true, false⟩⟩
    (c.run shelf).1.exitCode.code = 1 ∧
      (c.run shelf).1.stdout = "At line 2 get '2 : h' but expect '2 : h, h'\n\n" := by
  intro c
  have hfiles : shelf.readText "yours" = .ok "1 : f, g\n2 : h\n" ∧
      shelf.readText "std" = .ok "1 : g, f\n2 : h, h\n" := by
    have hnames : Files.names "yours" = ["yours"] ∧ Files.names "std" = ["std"] := by
      decide +kernel
    have hfile : Files.namesDirectory "yours" = false ∧ Files.namesDirectory "std" = false := by
      decide +kernel
    constructor <;> apply Files.readText_of_read <;>
      simp [Files.read, hnames, hfile, Files.walk, Files.node?, shelf]
  have hreport : Report.parse true "1 : f, g\n2 : h\n" = .ok [⟨1, ["f", "g"]⟩, ⟨2, ["h"]⟩] := by
    decide +kernel
  have hanswer : Report.parse true "1 : g, f\n2 : h, h\n" =
      .ok [⟨1, ["g", "f"]⟩, ⟨2, ["h", "h"]⟩] := by
    decide +kernel
  have hcompares : c.check.Compares "1 : f, g\n2 : h\n" "1 : g, f\n2 : h, h\n"
      [⟨1, ["f", "g"]⟩, ⟨2, ["h"]⟩] [⟨1, ["g", "f"]⟩, ⟨2, ["h", "h"]⟩] :=
    ⟨rfl, rfl, Report.parse_eq_ok_iff.mp hreport, Report.parse_eq_ok_iff.mp hanswer⟩
  have hagree : ReportLine.Agrees ⟨1, ["f", "g"]⟩ ⟨1, ["g", "f"]⟩ := ⟨rfl, .swap _ _ _⟩
  have hdiffer : ¬ ReportLine.Agrees ⟨2, ["h"]⟩ ⟨2, ["h", "h"]⟩ := by
    rintro ⟨-, hperm⟩
    exact absurd hperm.length_eq (by decide)
  have hverdict := CheckRequest.Verdict.wrongLine hcompares
    (.wrongLine (.cons hagree .nil) hdiffer [] [])
  apply (check_verdict_exact.2.2.2 c shelf _ _ rfl hfiles.1 ?_ _ _).mp hverdict
  rintro path ⟨⟩
  exact hfiles.2

end CallTargets
