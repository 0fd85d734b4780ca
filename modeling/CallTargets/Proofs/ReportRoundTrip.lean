import CallTargets.Proofs.EdgeGrouping
import CallTargets.Report.Check
import CallTargets.Report.Parser

/-!
# Reports are read back

What is printed can be read: a printed line is read back as itself by both readers, a text of
printed lines is split into just these lines, and so the report of an analysis is read back as
the lines that it was printed from.  It rests on four characters and the two line endings
staying out of names.
-/

namespace CallTargets

namespace ReportLine

/-- Names that can be told from what stands between them. -/
def IsName (name : String) : Prop := name ≠ "" ∧ ∀ ch ∈ name.toList, isNameChar ch

instance (name : String) : Decidable (IsName name) := inferInstanceAs (Decidable (_ ∧ _))

/-- The lines that can be read back: some names, and no more than names. -/
structure Printable (l : ReportLine) : Prop where
  names_ne_nil : l.names ≠ []
  isName : ∀ name ∈ l.names, IsName name

/-! ## The number -/

theorem readHead_append {digits : List Char} (hdigits : ∀ ch ∈ digits, ch.isDigit)
    {rest : List Char} {head : Head} (hrest : readHead rest = .ok head) :
    readHead (digits ++ rest) = .ok { head with digits := digits ++ head.digits } := by
  induction digits with
  | nil => exact hrest
  | cons ch digits ih =>
      have hch : ch.isDigit := hdigits ch List.mem_cons_self
      have hread := ih fun ch' hch' => hdigits ch' (List.mem_cons_of_mem ch hch')
      simp [readHead, hch, hread, Except.map]

theorem readNumber_toDigits (n : UInt64) : readNumber (Nat.toDigits 10 n.toNat) = .ok n := by
  have hvalue : decimal (Nat.toDigits 10 n.toNat) = n.toNat := Nat.ofDigitChars_ten_toDigits
  have hsize : n.toNat < UInt64.size := n.toNat_lt
  simp [readNumber, hvalue, hsize, Nat.toDigits_ne_nil]

/-! ## The names -/

theorem isNameChar_comma : isNameChar ',' = false := by decide +kernel

theorem isNameChar_space : isNameChar ' ' = false := by decide +kernel

theorem readNames_append (strict : Bool) {name : List Char} (hname : ∀ ch ∈ name, isNameChar ch)
    (reversed rest : List Char) :
    readNames strict reversed (name ++ rest) =
      readNames strict (name.reverse ++ reversed) rest := by
  induction name generalizing reversed with
  | nil => rfl
  | cons ch name ih =>
      have hch : isNameChar ch := hname ch List.mem_cons_self
      have hcomma : ch ≠ ',' := by
        rintro rfl
        simp [isNameChar_comma] at hch
      have hread := ih (fun ch' hch' => hname ch' (List.mem_cons_of_mem ch hch')) (ch :: reversed)
      simpa [readNames, hch, hcomma] using hread

theorem readNames_space (reversed rest : List Char) :
    readNames false reversed (' ' :: rest) = readNames false reversed rest := by
  simp [readNames, isNameChar_space]

theorem readNames_intercalate (strict : Bool) {names : List String} (hne : names ≠ [])
    (hnames : ∀ name ∈ names, IsName name) :
    readNames strict [] (", ".toList.intercalate (names.map String.toList)) = .ok names := by
  induction names with
  | nil => exact absurd rfl hne
  | cons name names ih =>
      obtain ⟨hfull, hchars⟩ := hnames name List.mem_cons_self
      have hreversed : name.toList.reverse ≠ [] := by simpa using hfull
      cases names with
      | nil =>
          have hread := readNames_append strict hchars [] []
          simp only [List.append_nil] at hread
          simp [hread, readNames, hfull]
      | cons next names =>
          have hread := ih (by simp) fun name' hname' =>
            hnames name' (List.mem_cons_of_mem name hname')
          have hsplit : ", ".toList.intercalate ((name :: next :: names).map String.toList) =
              name.toList ++ ',' :: ' ' ::
                ", ".toList.intercalate ((next :: names).map String.toList) := by
            simp [List.intercalate_cons_cons]
          rw [hsplit, readNames_append strict hchars, List.append_nil, readNames, hread]
          simp [Except.map, hfull]

/-! ## A line -/

theorem toList_text (l : ReportLine) : l.text.toList =
    Nat.toDigits 10 l.number.toNat ++ ' ' :: ':' :: ' ' ::
      ", ".toList.intercalate (l.names.map String.toList) := by
  simp [text, Nat.toString_eq_repr, Nat.repr, String.toList_intercalate]

theorem isDigit_of_mem_number {l : ReportLine} {ch : Char}
    (h : ch ∈ Nat.toDigits 10 l.number.toNat) : ch.isDigit :=
  Nat.isDigit_of_mem_toDigits (by decide) (by decide) h

theorem parse_text (strict : Bool) {l : ReportLine} (h : l.Printable) :
    parse strict l.text = .ok l := by
  let names := ", ".toList.intercalate (l.names.map String.toList)
  let head : Head := ⟨Nat.toDigits 10 l.number.toNat, 1, ' ' :: names⟩
  have hhead : readHead l.text.toList = .ok head := by
    rw [toList_text]
    exact (readHead_append (fun _ => isDigit_of_mem_number) rfl).trans (by simp [head, names])
  have hnames : readNames strict [] names = .ok l.names :=
    readNames_intercalate strict h.names_ne_nil h.isName
  -- The readers part at the space after the colon: one wants it, the other reads over it.
  have hrest : ∃ rest, afterColon strict head = .ok rest ∧
      readNames strict [] rest = .ok l.names := by
    cases strict with
    | false => exact ⟨' ' :: names, rfl, (readNames_space [] names).trans hnames⟩
    | true => exact ⟨names, rfl, hnames⟩
  obtain ⟨rest, hafter, hread⟩ := hrest
  refine bind_eq_ok_iff.mpr ⟨head, hhead, bind_eq_ok_iff.mpr ⟨rest, hafter, ?_⟩⟩
  apply bind_eq_ok_iff.mpr
  refine ⟨l.number, readNumber_toDigits l.number, ?_⟩
  exact bind_eq_ok_iff.mpr ⟨l.names, hread, rfl⟩

theorem mem_of_mem_intercalate {sep : List Char} {parts : List (List Char)} {ch : Char}
    (h : ch ∈ sep.intercalate parts) : ch ∈ sep ∨ ∃ part ∈ parts, ch ∈ part := by
  induction parts with
  | nil => simp at h
  | cons part parts ih =>
      cases parts with
      | nil => simpa using Or.inr h
      | cons next parts =>
          simp only [List.intercalate_cons_cons, List.mem_append] at h
          rcases h with (hpart | hsep) | hrest
          · exact Or.inr ⟨part, List.mem_cons_self, hpart⟩
          · exact Or.inl hsep
          · apply (ih hrest).imp_right
            rintro ⟨part', hpart', hch⟩
            exact ⟨part', List.mem_cons_of_mem part hpart', hch⟩

theorem mem_text {l : ReportLine} (h : l.Printable) {ch : Char} (hch : ch ∈ l.text.toList) :
    ch.isDigit ∨ ch ∈ [' ', ':', ','] ∨ isNameChar ch := by
  rw [toList_text, List.mem_append] at hch
  rcases hch with hdigit | hrest
  · exact Or.inl (isDigit_of_mem_number hdigit)
  · right
    simp only [List.mem_cons] at hrest
    rcases hrest with rfl | rfl | rfl | hnames
    · simp
    · simp
    · simp
    · rcases mem_of_mem_intercalate hnames with hsep | ⟨part, hpart, hin⟩
      · left
        have hcases : ch = ',' ∨ ch = ' ' := by simpa using hsep
        rcases hcases with rfl | rfl <;> simp
      · obtain ⟨name, hname, rfl⟩ := List.mem_map.mp hpart
        exact Or.inr ((h.isName name hname).2 ch hin)

theorem ne_lineEnd_of_mem_text {l : ReportLine} (h : l.Printable) {ch : Char}
    (hch : ch ∈ l.text.toList) : ch ≠ '\n' ∧ ch ≠ '\r' := by
  constructor
  · rintro rfl
    exact absurd (mem_text h hch) (by decide +kernel)
  · rintro rfl
    exact absurd (mem_text h hch) (by decide +kernel)

end ReportLine

/-! ## A text of lines -/

namespace Text

theorem linesFrom_append {line : List Char} (h : ∀ ch ∈ line, ch ≠ '\n' ∧ ch ≠ '\r')
    (reversed rest : List Char) :
    linesFrom reversed (line ++ rest) = linesFrom (line.reverse ++ reversed) rest := by
  induction line generalizing reversed with
  | nil => rfl
  | cons ch line ih =>
      have hch := h ch List.mem_cons_self
      have hlines := ih (fun ch' hch' => h ch' (List.mem_cons_of_mem ch hch')) (ch :: reversed)
      simpa [linesFrom, hch.1] using hlines

theorem endedLine_reverse {line : List Char} (h : ∀ ch ∈ line, ch ≠ '\n' ∧ ch ≠ '\r') :
    endedLine line.reverse = line := by
  unfold endedLine
  split
  · next reversed heq =>
      have hmem : '\r' ∈ line := by
        rw [← List.mem_reverse, heq]
        exact List.mem_cons_self
      exact absurd rfl (h _ hmem).2
  · exact List.reverse_reverse line

theorem linesFrom_flatMap {ls : List (List Char)}
    (h : ∀ line ∈ ls, ∀ ch ∈ line, ch ≠ '\n' ∧ ch ≠ '\r') :
    linesFrom [] (ls.flatMap (· ++ ['\n'])) = ls := by
  induction ls with
  | nil => rfl
  | cons line ls ih =>
      have hline := h line List.mem_cons_self
      have hls := ih fun line' hline' => h line' (List.mem_cons_of_mem line hline')
      calc linesFrom [] ((line :: ls).flatMap (· ++ ['\n']))
          = linesFrom [] (line ++ '\n' :: ls.flatMap (· ++ ['\n'])) := by simp
        _ = linesFrom line.reverse ('\n' :: ls.flatMap (· ++ ['\n'])) := by
            rw [linesFrom_append hline, List.append_nil]
        _ = endedLine line.reverse :: linesFrom [] (ls.flatMap (· ++ ['\n'])) := by
            simp [linesFrom]
        _ = line :: ls := by rw [endedLine_reverse hline, hls]

end Text

namespace Report

theorem lines_join_text {ls : List ReportLine} (h : ∀ l ∈ ls, l.Printable) :
    Text.lines (String.join (ls.map fun l => l.text ++ "\n")) = ls.map ReportLine.text := by
  have hlines : Text.linesFrom [] ((ls.map (·.text.toList)).flatMap (· ++ ['\n'])) =
      ls.map (·.text.toList) := by
    apply Text.linesFrom_flatMap
    intro line hline ch hch
    obtain ⟨l, hl, rfl⟩ := List.mem_map.mp hline
    exact ReportLine.ne_lineEnd_of_mem_text (h l hl) hch
  have htext : (String.join (ls.map fun l => l.text ++ "\n")).toList =
      (ls.map (·.text.toList)).flatMap (· ++ ['\n']) := by
    simp [String.toList_join, List.flatMap_map]
  rw [Text.lines, htext, hlines]
  simp

theorem parseFrom_map_text (strict : Bool) {ls : List ReportLine} (h : ∀ l ∈ ls, l.Printable)
    (index : Nat) : parseFrom strict index (ls.map ReportLine.text) = .ok ls := by
  induction ls generalizing index with
  | nil => rfl
  | cons l ls ih =>
      have hl := ReportLine.parse_text strict (h l List.mem_cons_self)
      have hls := ih (fun l' hl' => h l' (List.mem_cons_of_mem l hl')) (index + 1)
      simp [parseFrom, hl, hls, Except.map]

theorem checkFrom_self (ls : List ReportLine) (number : Nat) : checkFrom number ls ls = .ok () := by
  induction ls generalizing number with
  | nil => rfl
  | cons l ls ih =>
      have hsame : l.Same l := ⟨rfl, rfl⟩
      simp [checkFrom, hsame, ih]

end Report

/-! ## The report of an analysis -/

/-- Results that come out of a list one by one. -/
theorem forall₂_of_mapM {ε α β : Type} {f : α → Except ε β} {as : List α} {bs : List β}
    (h : as.mapM f = .ok bs) : List.Forall₂ (fun a b => f a = .ok b) as bs := by
  induction as generalizing bs with
  | nil =>
      cases h
      exact .nil
  | cons a as ih =>
      rw [List.mapM_cons] at h
      obtain ⟨b, hb, h⟩ := bind_eq_ok_iff.mp h
      obtain ⟨bs', hbs', h⟩ := bind_eq_ok_iff.mp h
      cases h
      exact .cons hb (ih hbs')

theorem exists_of_mem_forall₂ {α β : Type} {R : α → β → Prop} {as : List α} {bs : List β}
    (h : List.Forall₂ R as bs) {b : β} (hb : b ∈ bs) : ∃ a ∈ as, R a b := by
  induction h with
  | nil => cases hb
  | cons hR _ ih =>
      rcases List.mem_cons.mp hb with rfl | hb
      · exact ⟨_, List.mem_cons_self, hR⟩
      · obtain ⟨a, ha, hab⟩ := ih hb
        exact ⟨a, List.mem_cons_of_mem _ ha, hab⟩

namespace SiteTable

variable {p : Program} {t : SiteTable} {lines : List ReportLine}

theorem reportLine?_eq_some {site : CallSite} {callees : FuncSet} {l : ReportLine}
    (h : reportLine? p site callees = .ok (some l)) :
    ∃ n, site = .line n ∧ l.number = n.toUInt64 ∧
      List.Forall₂ (fun f name => ∃ fn, p.function f = .ok fn ∧ fn.name = name)
        callees.toList l.names := by
  cases site with
  | inst call => cases h
  | line n =>
      obtain ⟨names, hnames, h⟩ := bind_eq_ok_iff.mp h
      cases h
      refine ⟨n, rfl, rfl, (forall₂_of_mapM hnames).imp fun f name hname => ?_⟩
      obtain ⟨fn, hfn, hname⟩ := bind_eq_ok_iff.mp hname
      cases hname
      exact ⟨fn, hfn, rfl⟩

theorem number_lt_of_compare {site site' : CallSite} {callees callees' : FuncSet}
    {l l' : ReportLine} (hl : reportLine? p site callees = .ok (some l))
    (hl' : reportLine? p site' callees' = .ok (some l')) (h : compare site site' = .lt) :
    l.number < l'.number := by
  obtain ⟨n, rfl, hn, -⟩ := reportLine?_eq_some hl
  obtain ⟨m, rfl, hm, -⟩ := reportLine?_eq_some hl'
  have hnm : n < m := by
    simpa [CallSite.compare_def, CallSite.rank, CallSite.key, Std.compare_eq_lt] using h
  rw [hn, hm, UInt64.lt_iff_toNat_lt]
  simpa using UInt32.lt_iff_toNat_lt.mp hnm

theorem exists_entry_of_mem_lines {entries : List (CallSite × FuncSet)}
    {found : List (Option ReportLine)}
    (h : List.Forall₂ (fun entry line? => reportLine? p entry.1 entry.2 = .ok line?)
      entries found)
    {l : ReportLine} (hl : l ∈ found.filterMap id) :
    ∃ entry ∈ entries, reportLine? p entry.1 entry.2 = .ok (some l) :=
  exists_of_mem_forall₂ h (by simpa using hl)

theorem pairwise_lines {entries : List (CallSite × FuncSet)} {found : List (Option ReportLine)}
    (h : List.Forall₂ (fun entry line? => reportLine? p entry.1 entry.2 = .ok line?)
      entries found)
    (horder : entries.Pairwise fun a b => compare a.1 b.1 = .lt) :
    (found.filterMap id).Pairwise fun a b => a.number < b.number := by
  induction h with
  | nil => exact .nil
  | @cons entry line? entries found hentry hrest ih =>
      obtain ⟨hhead, htail⟩ := List.pairwise_cons.mp horder
      cases line? with
      | none => exact ih htail
      | some l =>
          refine List.pairwise_cons.mpr ⟨fun l' hl' => ?_, ih htail⟩
          obtain ⟨later, hlater, hl'⟩ := exists_entry_of_mem_lines hrest hl'
          exact number_lt_of_compare hentry hl' (hhead later hlater)

/-- The lines of a report come in the order of their numbers, each from the entry of a source
line, with the name of one callee after the other. -/
theorem lines_of_reportLines (h : t.reportLines p = .ok lines) :
    (lines.Pairwise fun a b => a.number < b.number) ∧
    ∀ l ∈ lines, ∃ n callees, t.get? (.line n) = some callees ∧
      List.Forall₂ (fun f name => ∃ fn, p.function f = .ok fn ∧ fn.name = name)
        callees.toList l.names := by
  obtain ⟨found, hfound, h⟩ := bind_eq_ok_iff.mp h
  cases h
  have hentries := forall₂_of_mapM hfound
  refine ⟨pairwise_lines hentries Std.ExtTreeMap.ordered_keys_toList, fun l hl => ?_⟩
  obtain ⟨⟨site, callees⟩, hentry, hl⟩ := exists_entry_of_mem_lines hentries hl
  obtain ⟨n, hsite, -, hnames⟩ := reportLine?_eq_some hl
  refine ⟨n, callees, ?_, hnames⟩
  rw [← hsite]
  exact Std.ExtTreeMap.mem_toList_iff_getElem?_eq_some.mp hentry

theorem exists_reportLines (h : ∀ site g, t.Lists site g → ∃ fn, p.function g = .ok fn) :
    ∃ lines, t.reportLines p = .ok lines := by
  have hentries : Gives (fun _ => True)
      (t.toList.mapM fun entry => reportLine? p entry.1 entry.2) := by
    apply Gives.mapM
    rintro ⟨site, callees⟩ hentry
    have hget := Std.ExtTreeMap.mem_toList_iff_getElem?_eq_some.mp hentry
    cases site with
    | inst call => exact .of_eq rfl
    | line n =>
        refine .bind (.mapM fun f hf => ?_) fun _ _ _ => .pure trivial
        obtain ⟨fn, hfn⟩ := h _ f ⟨callees, hget, Std.ExtTreeSet.mem_toList.mp hf⟩
        exact .bind (.of_eq hfn) fun _ _ _ => .pure trivial
  obtain ⟨found, hfound, -⟩ := hentries
  exact ⟨found.filterMap id, bind_eq_ok_iff.mpr ⟨found, hfound, rfl⟩⟩

theorem printable_of_mem_reportLines (hproper : t.Proper)
    (hnames : ∀ n f fn, t.Lists (.line n) f → p.function f = .ok fn →
      ReportLine.IsName fn.name)
    (h : t.reportLines p = .ok lines) {l : ReportLine} (hl : l ∈ lines) : l.Printable := by
  obtain ⟨n, callees, hget, hnamed⟩ := (lines_of_reportLines h).2 l hl
  constructor
  · intro hnil
    rw [hnil, List.forall₂_nil_right_iff] at hnamed
    obtain ⟨g, hg⟩ := hproper _ callees hget
    have hmem := Std.ExtTreeSet.mem_toList.mpr hg
    rw [hnamed] at hmem
    cases hmem
  · intro name hname
    obtain ⟨f, hf, fn, hfn, rfl⟩ := exists_of_mem_forall₂ hnamed hname
    exact hnames n f fn ⟨callees, hget, Std.ExtTreeSet.mem_toList.mp hf⟩ hfn

end SiteTable

theorem Results.Combine.function_of_lists {p : Program} {c : Config} (htables : p.Tables)
    {res : Results} (h : res.Combine p c) {site : CallSite} {g : FuncId}
    (hg : res.sites.Lists site g) : ∃ fn, p.function g = .ok fn := by
  obtain ⟨call, -, hcall⟩ := (h.paired.lists_iff site g).mp hg
  obtain ⟨_, ⟨f, r, -, hr, rfl⟩, hlisted⟩ := (h.targets.callees call g).mp hcall
  obtain ⟨x, -, hx⟩ := (Edges.faithful_of_freshRun hr).target call g hlisted
  obtain ⟨fn, hfn, -⟩ := htables.function_of_asFunction? hx
  exact ⟨fn, hfn⟩

/-- Both readers give a printed line back.  So they give back the report of every successful
analysis of a built program whose reported functions have names that can be read: the report is
printed, it is read as the lines that it was printed from, these come with increasing numbers,
and comparing the two finds no difference. -/
theorem report_reads_back :
    (∀ strict (l : ReportLine), l.Printable → ReportLine.parse strict l.text = .ok l) ∧
    ∀ steps built c res, build steps = .ok built →
      (analyze built.program c).outcome {} = .ok res →
      (∀ n f fn, res.sites.Lists (.line n) f → built.program.function f = .ok fn →
        ReportLine.IsName fn.name) →
      ∃ lines text, res.reportLines built.program = .ok lines ∧
        res.report built.program = .ok text ∧
        (lines.Pairwise fun a b => a.number < b.number) ∧
        ∀ strict, ∃ read, Report.parse strict text = .ok read ∧ read = lines ∧
          Report.check read lines = .ok () := by
  refine ⟨fun strict l h => ReportLine.parse_text strict h, ?_⟩
  intro steps built c res hbuilt hres hnames
  have hcombine := (analyze_eq_ok hres).1
  obtain ⟨lines, hlines⟩ := SiteTable.exists_reportLines fun site g hg =>
    hcombine.function_of_lists (tables_of_build hbuilt) hg
  have hprintable : ∀ l ∈ lines, l.Printable := fun l hl =>
    SiteTable.printable_of_mem_reportLines hcombine.paired.sites_proper hnames hlines hl
  have htext : res.report built.program =
      .ok (String.join (lines.map fun l => l.text ++ "\n")) := by
    rw [Results.report, Results.reportLines, hlines]
    rfl
  refine ⟨lines, _, hlines, htext, (SiteTable.lines_of_reportLines hlines).1,
    fun strict => ⟨lines, ?_, rfl, Report.checkFrom_self lines 1⟩⟩
  rw [Report.parse, Report.lines_join_text hprintable]
  exact Report.parseFrom_map_text strict hprintable 1

/-- A call through a pointer on one line, two calls on an earlier one. -/
def twoLines : List Step :=
  [.define "größe" [] .void, .ret none, .define "plus_1" [] .void, .ret none,
    .define "main" [] .void, .alloca "slot" .ptr, .store (.ofNat 2) (.ofNat 5),
    .load "fp" .ptr (.ofNat 5), .setLine 12, .call "" .void (.ofNat 7) [], .setLine 7,
    .call "" .void (.ofNat 2) [], .call "" .void (.ofNat 0) [], .ret none]

theorem report_reads_back_twoLines : ∃ built res text, build twoLines = .ok built ∧
    (analyze built.program {}).outcome {} = .ok res ∧
    res.reportLines built.program = .ok [⟨7, ["größe", "plus_1"]⟩, ⟨12, ["plus_1"]⟩] ∧
    res.report built.program = .ok text ∧
    (∀ strict, Report.parse strict text = .ok [⟨7, ["größe", "plus_1"]⟩, ⟨12, ["plus_1"]⟩]) ∧
    ReportLine.parse true "7 : größe, plus_1" = .ok ⟨7, ["größe", "plus_1"]⟩ := by
  let expected : List ReportLine := [⟨7, ["größe", "plus_1"]⟩, ⟨12, ["plus_1"]⟩]
  obtain ⟨built, hbuilt, hanalyze, hnames⟩ : ∃ built, build twoLines = .ok built ∧
      ((analyze built.program {}).outcome {}).toOption.any (fun res =>
        (res.reportLines built.program).toOption.any (· = expected)) = true ∧
      built.program.functions.toList.map Function.name = ["größe", "plus_1", "main"] :=
    ⟨_, rfl, by decide +kernel, rfl⟩
  have hname : ∀ name ∈ ["größe", "plus_1", "main"], ReportLine.IsName name := by
    -- `simp` spells the names out; evaluating their `toList` would go through their bytes
    simp [ReportLine.IsName]
    decide
  obtain ⟨res, session, hres, hexpected⟩ := Halting.eq_ok_of_outcome_any hanalyze
  have houtcome := Halting.outcome_eq_ok_iff.mpr ⟨session, hres⟩
  obtain ⟨hline, hreport⟩ := report_reads_back
  obtain ⟨lines, text, hlines, htext, -, hread⟩ :=
    hreport twoLines built {} res hbuilt houtcome fun n f fn _ hfn => by
      have hfn := Array.mem_toList_iff.mpr (Array.mem_of_getElem? (fetch_eq_ok_iff.mp hfn))
      exact hname _ (hnames ▸ List.mem_map_of_mem hfn)
  rw [hlines] at hexpected
  have heq : lines = expected := by simpa [Except.toOption] using hexpected
  subst heq
  refine ⟨built, res, text, hbuilt, houtcome, hlines, htext, fun strict => ?_, ?_⟩
  · obtain ⟨read, hparse, rfl, -⟩ := hread strict
    exact hparse
  · exact hline true ⟨7, ["größe", "plus_1"]⟩
      ⟨by decide, fun name h => hname name (List.mem_append_left ["main"] h)⟩

end CallTargets
