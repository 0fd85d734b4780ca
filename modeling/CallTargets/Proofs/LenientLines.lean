import CallTargets.Proofs.StrictLines

/-!
# What the lenient reader accepts

The lenient reader does not see spaces: it comes to one and the same answer on a line and on that
line without its spaces.  There it accepts digits, a colon, and names divided by commas.  What the
strict reader wants of spaces only restricts it, so whatever the strict reader reads, the lenient
one reads alike.
-/

namespace CallTargets

namespace ReportLine

def withoutSpaces (s : String) : String := String.ofList (s.toList.filter (· != ' '))

/-- The text is the line `l` without a single space: a number, a colon, and names divided by
commas. -/
def Compactly (l : ReportLine) (s : String) : Prop :=
  ∃ digits, Numeral digits l.number ∧ l.Printable ∧ s = digits ++ ":" ++ ",".intercalate l.names

/-! ## Spaces are skipped -/

theorem readHead_filter (cs : List Char) :
    readHead (cs.filter (· != ' ')) =
      (readHead cs).map fun head => ⟨head.digits, 0, head.rest.filter (· != ' ')⟩ := by
  induction cs with
  | nil => rfl
  | cons c cs ih =>
      by_cases hspace : c = ' '
      · subst hspace
        rw [List.filter_cons_of_neg (by simp), ih]
        cases hhead : readHead cs <;> simp [readHead, hhead, Except.map]
      · rw [List.filter_cons_of_pos (by simpa using hspace)]
        by_cases hdigit : c.isDigit
        · cases hhead : readHead cs <;> simp [readHead, hdigit, ih, hhead, Except.map]
        · by_cases hcolon : c = ':'
          · simp [readHead, hcolon, Except.map]
          · simp [readHead, hdigit, hcolon, hspace, Except.map]

/-- The lenient reader takes one character after the other, also where a space follows a comma. -/
theorem readNames_false_cons (reversed : List Char) (c : Char) (rest : List Char) :
    readNames false reversed (c :: rest) =
      if isNameChar c then readNames false (c :: reversed) rest
      else if c = ',' then
        if reversed.isEmpty then .error .commaWithoutName
        else (readNames false [] rest).map (String.ofList reversed.reverse :: ·)
      else if c = ' ' then readNames false reversed rest
      else .error (.nameChar c) := by
  by_cases hpair : c = ',' ∧ ∃ rest', rest = ' ' :: rest'
  · obtain ⟨rfl, rest, rfl⟩ := hpair
    simp [readNames, isNameChar_comma, readNames_space]
  · rw [readNames]
    · simp
    · rintro rest' rfl rfl
      exact hpair ⟨rfl, rest', rfl⟩

theorem readNames_filter (reversed cs : List Char) :
    readNames false reversed (cs.filter (· != ' ')) = readNames false reversed cs := by
  induction cs generalizing reversed with
  | nil => rfl
  | cons c cs ih =>
      by_cases hspace : c = ' '
      · subst hspace
        rw [List.filter_cons_of_neg (by simp), ih, readNames_space]
      · rw [List.filter_cons_of_pos (by simpa using hspace)]
        simp only [readNames_false_cons, ih]

theorem parse_false (s : String) :
    parse false s = readHead s.toList >>= fun head =>
      readNumber head.digits >>= fun number =>
        readNames false [] head.rest >>= fun names => .ok ⟨number, names⟩ := rfl

theorem parse_withoutSpaces (s : String) : parse false (withoutSpaces s) = parse false s := by
  rw [parse_false, parse_false, withoutSpaces, String.toList_ofList, readHead_filter]
  cases readHead s.toList with
  | error e => rfl
  | ok head =>
      simp only [Except.map, bind, Except.bind, readNames_filter]

/-! ## What the strict reader reads -/

theorem readNames_of_strict {reversed cs : List Char} {names : List String}
    (h : readNames true reversed cs = .ok names) : readNames false reversed cs = .ok names := by
  fun_induction readNames true reversed cs generalizing names with
  | case2 reversed hne => simpa [readNames, hne] using h
  | case4 reversed rest hne ih =>
      obtain ⟨names, hnames, rfl⟩ := map_eq_ok_iff.mp h
      rw [readNames, if_neg hne, ih hnames]
      rfl
  | case5 reversed c rest _ hchar ih =>
      rw [readNames_false_cons, if_pos hchar]
      exact ih h
  | case8 _ _ _ hlenient => exact absurd rfl hlenient
  | case10 _ _ hlenient => exact absurd rfl hlenient
  | _ => cases h

/-- The readers are at different places after the colon: one has taken the space along that the
other still has to skip. -/
theorem parse_of_strict {s : String} {l : ReportLine} (h : parse true s = .ok l) :
    parse false s = .ok l := by
  obtain ⟨head, hhead, h⟩ := bind_eq_ok_iff.mp h
  obtain ⟨rest, hafter, h⟩ := bind_eq_ok_iff.mp h
  obtain ⟨number, hnumber, h⟩ := bind_eq_ok_iff.mp h
  obtain ⟨names, hnames, h⟩ := bind_eq_ok_iff.mp h
  have hread : readNames false [] head.rest = .ok names := by
    rw [(afterColon_true_eq_ok_iff.mp hafter).2, readNames_space]
    exact readNames_of_strict hnames
  rw [parse_false]
  refine bind_eq_ok_iff.mpr ⟨head, hhead, bind_eq_ok_iff.mpr ⟨number, hnumber, ?_⟩⟩
  exact bind_eq_ok_iff.mpr ⟨names, hread, h⟩

/-! ## Lines without spaces -/

theorem filter_digits {cs : List Char} (h : ∀ ch ∈ cs, ch.isDigit ∨ ch = ' ') :
    cs.filter (· != ' ') = cs.filter Char.isDigit := by
  apply List.filter_congr
  intro ch hch
  rcases h ch hch with hdigit | rfl
  · have hspace : ch ≠ ' ' := by
      rintro rfl
      exact absurd hdigit (by decide)
    simp [hdigit, hspace]
  · decide

theorem filter_intercalate {parts : List (List Char)} (h : ∀ part ∈ parts, ' ' ∉ part) :
    (", ".toList.intercalate parts).filter (· != ' ') = ",".toList.intercalate parts := by
  induction parts with
  | nil => rfl
  | cons part parts ih =>
      obtain ⟨hpart, hparts⟩ := List.forall_mem_cons.mp h
      have hkept : part.filter (· != ' ') = part := by
        rw [List.filter_eq_self]
        intro ch hch
        rw [bne_iff_ne]
        rintro rfl
        exact hpart hch
      cases parts with
      | nil => simpa using hkept
      | cons next parts =>
          have hrest := ih hparts
          simp only [List.intercalate_cons_cons, List.filter_append, hkept, hrest]
          rfl

/-- The names of a line, and how its text shows them. -/
theorem compact_of_readNames {reversed cs : List Char} {names : List String}
    (hreversed : ∀ ch ∈ reversed, isNameChar ch)
    (h : readNames false reversed cs = .ok names) :
    names ≠ [] ∧ (∀ name ∈ names, IsName name) ∧
    reversed.reverse ++ cs.filter (· != ' ') = ",".toList.intercalate (names.map String.toList) := by
  induction cs generalizing reversed names with
  | nil =>
      rw [readNames] at h
      split at h
      · cases h
      · next hne =>
          cases h
          have hname := isName_ofList_reverse hne hreversed
          exact ⟨by simp, by simpa using hname, by simp⟩
  | cons c cs ih =>
      rw [readNames_false_cons] at h
      split at h
      · next hchar =>
          have hspace : c ≠ ' ' := by
            rintro rfl
            exact absurd hchar (by simp [isNameChar_space])
          have hnames := ih (List.forall_mem_cons.mpr ⟨hchar, hreversed⟩) h
          simpa [hspace] using hnames
      · split at h
        · next hcomma =>
            split at h
            · cases h
            · next hne =>
                obtain ⟨names, hnames, rfl⟩ := map_eq_ok_iff.mp h
                obtain ⟨hfull, hrest, hcs⟩ := ih (by simp) hnames
                have hname := isName_ofList_reverse hne hreversed
                refine ⟨by simp, List.forall_mem_cons.mpr ⟨hname, hrest⟩, ?_⟩
                rw [List.reverse_nil, List.nil_append] at hcs
                rw [List.map_cons, List.intercalate_cons_of_ne_nil (by simpa using hfull), ← hcs]
                simp [hcomma]
        · split at h
          · next hspace =>
              have hnames := ih hreversed h
              simpa [hspace] using hnames
          · cases h

theorem compactly_of_parse {s : String} {l : ReportLine} (h : parse false s = .ok l) :
    l.Compactly (withoutSpaces s) := by
  rw [parse_false] at h
  obtain ⟨head, hhead, h⟩ := bind_eq_ok_iff.mp h
  obtain ⟨number, hnumber, h⟩ := bind_eq_ok_iff.mp h
  obtain ⟨names, hnames, h⟩ := bind_eq_ok_iff.mp h
  cases h
  obtain ⟨hne, hvalue⟩ := readNumber_eq_ok_iff.mp hnumber
  obtain ⟨hfull, hisName, htext⟩ := compact_of_readNames (by simp) hnames
  obtain ⟨before, hcs, hchars, hdigits, -⟩ := prefix_of_readHead hhead
  refine ⟨String.ofList head.digits, ⟨?_, ?_, ?_⟩, ⟨hfull, hisName⟩, ?_⟩
  · simpa [← String.toList_inj] using hne
  · simp [hdigits]
  · simpa using hvalue
  · -- A line that ends before a colon has no names.
    rcases hcs with hcs | ⟨-, hnil⟩
    · have hbefore := filter_digits hchars
      rw [← String.toList_inj, withoutSpaces, hcs, hdigits, ← hbefore]
      simpa [String.toList_intercalate] using htext
    · rw [hnil] at hnames
      cases hnames

/-- With the spaces of the strict form taken out, that form is the compact one. -/
theorem withoutSpaces_strict {digits : String} (hdigits : ∀ ch ∈ digits.toList, ch.isDigit)
    {names : List String} (hnames : ∀ name ∈ names, IsName name) :
    withoutSpaces (digits ++ " : " ++ ", ".intercalate names) =
      digits ++ ":" ++ ",".intercalate names := by
  have hnumber : digits.toList.filter (· != ' ') = digits.toList := by
    rw [filter_digits fun ch hch => Or.inl (hdigits ch hch)]
    exact List.filter_eq_self.mpr hdigits
  have hparts : ∀ part ∈ names.map String.toList, ' ' ∉ part := by
    intro part hpart hspace
    obtain ⟨name, hname, rfl⟩ := List.mem_map.mp hpart
    have hchar := (hnames name hname).2 ' ' hspace
    rw [isNameChar_space] at hchar
    cases hchar
  have hfilter := filter_intercalate hparts
  simp only [withoutSpaces, ← String.toList_inj, String.toList_ofList, String.toList_append,
    String.toList_intercalate, List.filter_append, hnumber, hfilter]
  rfl

theorem parse_of_compactly {s : String} {l : ReportLine} (h : l.Compactly s) :
    parse false s = .ok l := by
  obtain ⟨digits, hdigits, hl, rfl⟩ := h
  have hstrict : l.Strictly (digits ++ " : " ++ ", ".intercalate l.names) :=
    ⟨digits, hdigits, hl, rfl⟩
  have hread := parse_of_strict (parse_of_loosely (strictly_iff.mp hstrict).1)
  rw [← parse_withoutSpaces, withoutSpaces_strict hdigits.isDigit hl.isName] at hread
  exact hread

/-- The lenient reader does not tell a line from that line without its spaces, and it accepts the
lines that are then left with digits, a colon, and names divided by commas.  It is the reader that
is taken where none is chosen. -/
theorem lenient_reader_accepts (s : String) :
    parse false s = parse false (withoutSpaces s) ∧ ofString s = parse false s ∧
    ∀ l : ReportLine, parse false s = .ok l ↔ l.Compactly (withoutSpaces s) := by
  refine ⟨(parse_withoutSpaces s).symm, rfl, fun l => ⟨compactly_of_parse, fun h => ?_⟩⟩
  rw [← parse_withoutSpaces]
  exact parse_of_compactly h

end ReportLine

/-! ## Whole reports -/

theorem Report.parseFrom_of_strict {index : Nat} {lines : List String} {read : List ReportLine}
    (h : parseFrom true index lines = .ok read) : parseFrom false index lines = .ok read := by
  induction lines generalizing index read with
  | nil => exact h
  | cons line lines ih =>
      unfold parseFrom at h ⊢
      cases hline : ReportLine.parse true line with
      | error e =>
          rw [hline] at h
          cases h
      | ok l =>
          rw [hline] at h
          rw [ReportLine.parse_of_strict hline]
          obtain ⟨rest, hrest, rfl⟩ := map_eq_ok_iff.mp h
          exact map_eq_ok_iff.mpr ⟨rest, ih hrest, rfl⟩

/-- What the strict reader reads, be it a line or a whole text, the lenient reader reads alike. -/
theorem lenient_reader_extends_strict :
    (∀ (s : String) (l : ReportLine), ReportLine.parse true s = .ok l →
      ReportLine.parse false s = .ok l) ∧
    ∀ (text : String) (read : List ReportLine), Report.parse true text = .ok read →
      Report.parse false text = .ok read :=
  ⟨fun _ _ h => ReportLine.parse_of_strict h, fun _ _ h => Report.parseFrom_of_strict h⟩

/-- A text of two lines, and a line with its one space among the digits. -/
theorem lenient_reader_extends_strict_twoLines :
    ReportLine.parse true "1 0: f, g_1" = .ok ⟨10, ["f", "g_1"]⟩ ∧
    ReportLine.parse false "1 0: f, g_1" = .ok ⟨10, ["f", "g_1"]⟩ ∧
    Report.parse true "1 : f\r\n23 : g, h" = .ok [⟨1, ["f"]⟩, ⟨23, ["g", "h"]⟩] ∧
    Report.parse false "1 : f\r\n23 : g, h" = .ok [⟨1, ["f"]⟩, ⟨23, ["g", "h"]⟩] := by
  have hline : ReportLine.parse true "1 0: f, g_1" = .ok ⟨10, ["f", "g_1"]⟩ := by decide +kernel
  have htext : Report.parse true "1 : f\r\n23 : g, h" =
      .ok [⟨1, ["f"]⟩, ⟨23, ["g", "h"]⟩] := by decide +kernel
  obtain ⟨hlines, htexts⟩ := lenient_reader_extends_strict
  exact ⟨hline, hlines _ _ hline, htext, htexts _ _ htext⟩

end CallTargets
