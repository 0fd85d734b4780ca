import CallTargets.Proofs.ReportRoundTrip
import Mathlib.Data.List.Basic

/-!
# What the strict reader accepts

The strict reader counts the spaces before the colon and does not look where they stand.  So it
accepts a line whose one space before the colon stands among the digits or in front of them, and
reads the digits over it.  Everything else in a line that it accepts is where it has to be.
-/

namespace CallTargets

namespace ReportLine

/-- Decimal digits, and the number that they denote. -/
structure Numeral (digits : String) (n : UInt64) : Prop where
  ne_empty : digits ≠ ""
  isDigit : ∀ ch ∈ digits.toList, ch.isDigit
  value : Nat.ofDigitChars 10 digits.toList 0 = n.toNat

/-- The text is the line `l`: a number, one space on either side of the colon, and names with one
space after each comma. -/
def Strictly (l : ReportLine) (s : String) : Prop :=
  ∃ digits, Numeral digits l.number ∧ l.Printable ∧
    s = digits ++ " : " ++ ", ".intercalate l.names

/-- The text is the line `l`, with the one space before the colon anywhere among the digits. -/
def Loosely (l : ReportLine) (s : String) : Prop :=
  ∃ front back, Numeral (front ++ back) l.number ∧ l.Printable ∧
    s = front ++ " " ++ back ++ ": " ++ ", ".intercalate l.names

/-! ## The number -/

theorem decimal_eq (digits : List Char) : decimal digits = Nat.ofDigitChars 10 digits 0 := rfl

theorem readNumber_eq_ok_iff {digits : List Char} {n : UInt64} :
    readNumber digits = .ok n ↔ digits ≠ [] ∧ Nat.ofDigitChars 10 digits 0 = n.toNat := by
  rw [← decimal_eq]
  unfold readNumber
  split
  · next hempty => simp [List.isEmpty_iff.mp hempty]
  · next hempty =>
      have hne : digits ≠ [] := fun h => hempty (List.isEmpty_iff.mpr h)
      split
      · next hsize =>
          have hword : (UInt64.ofNat (decimal digits)).toNat = decimal digits :=
            UInt64.toNat_ofNat_of_lt' hsize
          constructor
          · intro h
            cases h
            exact ⟨hne, hword.symm⟩
          · rintro ⟨-, hvalue⟩
            rw [Except.ok.injEq, ← UInt64.toNat_inj, hword, hvalue]
      · next hsize =>
          have hlt := n.toNat_lt
          simp only [reduceCtorEq, false_iff, not_and]
          intro _ hvalue
          exact hsize (hvalue ▸ hlt)

/-- What is read up to the colon, or to the end of a line without one. -/
theorem prefix_of_readHead {cs : List Char} {head : Head} (h : readHead cs = .ok head) :
    ∃ before, (cs = before ++ ':' :: head.rest ∨ cs = before ∧ head.rest = []) ∧
      (∀ ch ∈ before, ch.isDigit ∨ ch = ' ') ∧
      head.digits = before.filter Char.isDigit ∧ head.spaces = before.count ' ' := by
  induction cs generalizing head with
  | nil =>
      cases h
      exact ⟨[], Or.inr ⟨rfl, rfl⟩, by simp, rfl, rfl⟩
  | cons c cs ih =>
      unfold readHead at h
      split at h
      · next hdigit =>
          have hspace : c ≠ ' ' := by
            rintro rfl
            exact absurd hdigit (by decide)
          obtain ⟨tail, htail, rfl⟩ := map_eq_ok_iff.mp h
          obtain ⟨before, hcs, hchars, hdigits, hspaces⟩ := ih htail
          refine ⟨c :: before, ?_, ?_, ?_, ?_⟩
          · simpa using hcs
          · simpa [hdigit] using hchars
          · simp [hdigit, hdigits]
          · simp [hspace, hspaces]
      · split at h
        · next hcolon =>
            cases h
            exact ⟨[], Or.inl (by simp [hcolon]), by simp, rfl, rfl⟩
        · split at h
          · next hspace =>
              obtain ⟨tail, htail, rfl⟩ := map_eq_ok_iff.mp h
              obtain ⟨before, hcs, hchars, hdigits, hspaces⟩ := ih htail
              subst hspace
              refine ⟨' ' :: before, ?_, ?_, ?_, ?_⟩
              · simpa using hcs
              · simpa using hchars
              · simpa using hdigits
              · simp [hspaces]
          · cases h

theorem readHead_colon (rest : List Char) : readHead (':' :: rest) = .ok ⟨[], 0, rest⟩ := rfl

theorem readHead_space {cs : List Char} {head : Head} (h : readHead cs = .ok head) :
    readHead (' ' :: cs) = .ok { head with spaces := head.spaces + 1 } := by
  simp [readHead, h, Except.map]

theorem afterColon_true_eq_ok_iff {head : Head} {rest : List Char} :
    afterColon true head = .ok rest ↔ head.spaces = 1 ∧ head.rest = ' ' :: rest := by
  rw [afterColon, if_pos rfl]
  split
  · next hspaces => simp [hspaces]
  · next hspaces =>
      rw [not_not] at hspaces
      split
      · next rest' heq => simp [hspaces, heq]
      · next hne =>
          simp only [reduceCtorEq, false_iff, not_and]
          exact fun _ heq => hne rest heq

/-! ## The names -/

theorem isName_ofList_reverse {reversed : List Char} (hne : ¬reversed.isEmpty)
    (hreversed : ∀ ch ∈ reversed, isNameChar ch) : IsName (String.ofList reversed.reverse) := by
  rw [List.isEmpty_iff] at hne
  exact ⟨by simpa using hne, by simpa using hreversed⟩

theorem intercalate_of_readNames {reversed cs : List Char} {names : List String}
    (hreversed : ∀ ch ∈ reversed, isNameChar ch)
    (h : readNames true reversed cs = .ok names) :
    names ≠ [] ∧ (∀ name ∈ names, IsName name) ∧
    reversed.reverse ++ cs = ", ".toList.intercalate (names.map String.toList) := by
  fun_induction readNames true reversed cs generalizing names with
  | case2 reversed hne =>
      cases h
      have hname := isName_ofList_reverse hne hreversed
      exact ⟨by simp, by simpa using hname, by simp⟩
  | case4 reversed rest hne ih =>
      obtain ⟨names, hnames, rfl⟩ := map_eq_ok_iff.mp h
      obtain ⟨hfull, hrest, hcs⟩ := ih (by simp) hnames
      have hname := isName_ofList_reverse hne hreversed
      refine ⟨by simp, List.forall_mem_cons.mpr ⟨hname, hrest⟩, ?_⟩
      rw [List.reverse_nil, List.nil_append] at hcs
      rw [List.map_cons, List.intercalate_cons_of_ne_nil (by simpa using hfull), ← hcs]
      simp
  | case5 reversed c rest _ hchar ih =>
      have hnames := ih (List.forall_mem_cons.mpr ⟨hchar, hreversed⟩) h
      simpa using hnames
  | case8 _ _ _ hlenient => exact absurd rfl hlenient
  | case10 _ _ hlenient => exact absurd rfl hlenient
  | _ => cases h

/-! ## Lines -/

/-- A text without spaces. -/
theorem digits_of_count {cs : List Char} (hchars : ∀ ch ∈ cs, ch.isDigit ∨ ch = ' ')
    (hcount : cs.count ' ' = 0) : ∀ ch ∈ cs, ch.isDigit := by
  intro ch hch
  apply (hchars ch hch).resolve_right
  rintro rfl
  exact List.count_eq_zero.mp hcount hch

/-- One space among digits has digits on either side. -/
theorem split_of_count {cs : List Char} (hchars : ∀ ch ∈ cs, ch.isDigit ∨ ch = ' ')
    (hcount : cs.count ' ' = 1) : ∃ front back, cs = front ++ ' ' :: back ∧
      (∀ ch ∈ front ++ back, ch.isDigit) ∧ cs.filter Char.isDigit = front ++ back := by
  have hspace : ' ' ∈ cs := List.one_le_count_iff.mp hcount.ge
  obtain ⟨front, back, rfl⟩ := List.append_of_mem hspace
  have hrest : (front ++ back).count ' ' = 0 := by
    simp only [List.count_append, List.count_cons_self] at hcount ⊢
    omega
  have hdigits : ∀ ch ∈ front ++ back, ch.isDigit := by
    refine digits_of_count (fun ch hch => hchars ch ?_) hrest
    rw [List.mem_append] at hch ⊢
    exact hch.imp_right (List.mem_cons_of_mem _)
  refine ⟨front, back, rfl, hdigits, ?_⟩
  calc (front ++ ' ' :: back).filter Char.isDigit
      = (front ++ back).filter Char.isDigit := by
        simp [List.filter_append, List.filter_cons_of_neg (show ¬ ' '.isDigit by decide)]
    _ = front ++ back := List.filter_eq_self.mpr hdigits

theorem toList_loose (front back : String) (names : List String) :
    (front ++ " " ++ back ++ ": " ++ ", ".intercalate names).toList =
      front.toList ++ ' ' :: (back.toList ++ ':' :: ' ' ::
        ", ".toList.intercalate (names.map String.toList)) := by
  simp [String.toList_intercalate]

theorem loosely_of_parse {s : String} {l : ReportLine} (h : parse true s = .ok l) :
    l.Loosely s := by
  obtain ⟨head, hhead, h⟩ := bind_eq_ok_iff.mp h
  obtain ⟨rest, hafter, h⟩ := bind_eq_ok_iff.mp h
  obtain ⟨number, hnumber, h⟩ := bind_eq_ok_iff.mp h
  obtain ⟨names, hnames, h⟩ := bind_eq_ok_iff.mp h
  cases h
  obtain ⟨hspaces, hrest⟩ := afterColon_true_eq_ok_iff.mp hafter
  obtain ⟨hne, hvalue⟩ := readNumber_eq_ok_iff.mp hnumber
  obtain ⟨hfull, hisName, hnames⟩ := intercalate_of_readNames (by simp) hnames
  obtain ⟨before, hcs, hchars, hdigits, hcount⟩ := prefix_of_readHead hhead
  obtain ⟨front, back, rfl, hdigit, hfilter⟩ := split_of_count hchars (hcount.symm.trans hspaces)
  rw [hdigits, hfilter] at hne hvalue
  refine ⟨String.ofList front, String.ofList back, ⟨?_, ?_, ?_⟩, ⟨hfull, hisName⟩, ?_⟩
  · simpa [← String.toList_inj] using hne
  · simpa using hdigit
  · simpa using hvalue
  · -- A line that ends before a colon has nothing in the place of the space after it.
    rcases hcs with hcs | ⟨-, hnil⟩
    · rw [← String.toList_inj, toList_loose, hcs, hrest]
      simpa using hnames
    · rw [hnil] at hrest
      cases hrest

theorem parse_of_loosely {s : String} {l : ReportLine} (h : l.Loosely s) :
    parse true s = .ok l := by
  obtain ⟨front, back, ⟨hne, hdigit, hvalue⟩, hl, rfl⟩ := h
  rw [String.toList_append] at hdigit hvalue
  let names := ", ".toList.intercalate (l.names.map String.toList)
  have hback : readHead (back.toList ++ ':' :: ' ' :: names) =
      .ok ⟨back.toList, 0, ' ' :: names⟩ := by
    have hcolon := readHead_colon (' ' :: names)
    simpa using readHead_append (fun ch hch => hdigit ch (List.mem_append_right _ hch)) hcolon
  have hhead : readHead (front ++ " " ++ back ++ ": " ++ ", ".intercalate l.names).toList =
      .ok ⟨front.toList ++ back.toList, 1, ' ' :: names⟩ := by
    rw [toList_loose]
    exact readHead_append (fun ch hch => hdigit ch (List.mem_append_left _ hch))
      (readHead_space hback)
  have hafter : afterColon true ⟨front.toList ++ back.toList, 1, ' ' :: names⟩ = .ok names := rfl
  have hnumber : readNumber (front.toList ++ back.toList) = .ok l.number := by
    refine readNumber_eq_ok_iff.mpr ⟨fun hnil => hne ?_, hvalue⟩
    rw [← String.toList_inj, String.toList_append, hnil]
    rfl
  refine bind_eq_ok_iff.mpr ⟨_, hhead, bind_eq_ok_iff.mpr ⟨names, hafter, ?_⟩⟩
  refine bind_eq_ok_iff.mpr ⟨l.number, hnumber, bind_eq_ok_iff.mpr ⟨l.names, ?_, rfl⟩⟩
  exact readNames_intercalate true hl.names_ne_nil hl.isName

theorem colon_notMem_of_isDigit {cs : List Char} (h : ∀ ch ∈ cs, ch.isDigit) : ':' ∉ cs :=
  fun hcolon => absurd (h ':' hcolon) (by decide)

theorem colon_notMem_names {l : ReportLine} (h : l.Printable) :
    ':' ∉ ", ".toList.intercalate (l.names.map String.toList) := by
  intro hcolon
  rcases mem_of_mem_intercalate hcolon with hsep | ⟨part, hpart, hin⟩
  · exact absurd hsep (by decide +kernel)
  · obtain ⟨name, hname, rfl⟩ := List.mem_map.mp hpart
    exact absurd ((h.isName name hname).2 ':' hin) (by decide +kernel)

/-- A line has one colon, so a space that stands before a colon is the one before that colon, and
no digit comes after it. -/
theorem strictly_iff {s : String} {l : ReportLine} :
    l.Strictly s ↔ l.Loosely s ∧ [' ', ':'] <:+: s.toList := by
  constructor
  · rintro ⟨digits, hdigits, hl, rfl⟩
    refine ⟨⟨digits, "", by simpa using hdigits, hl, ?_⟩, ?_⟩
    · simp [← String.toList_inj]
    · exact ⟨digits.toList, ' ' :: (", ".intercalate l.names).toList, by simp⟩
  · rintro ⟨⟨front, back, hdigits, hl, rfl⟩, before, after, heq⟩
    have hchars := hdigits.isDigit
    rw [String.toList_append] at hchars
    have hfront : ':' ∉ front.toList ++ ' ' :: back.toList := by
      have hcolon := colon_notMem_of_isDigit hchars
      simpa using hcolon
    have hrest : ':' ∉ ' ' :: ", ".toList.intercalate (l.names.map String.toList) := by
      simpa using colon_notMem_names hl
    have hsplit : (front.toList ++ ' ' :: back.toList) ++ ':' :: ' ' ::
          ", ".toList.intercalate (l.names.map String.toList) =
        (before ++ [' ']) ++ ':' :: after := by
      rw [toList_loose] at heq
      simpa using heq.symm
    obtain ⟨hbefore, -, -⟩ := (List.append_cons_inj_of_notMem hfront hrest).mp hsplit
    have hback : back.toList = [] := by
      by_contra hne
      have hlast : back.toList.getLast hne = ' ' := by
        have hlast := congrArg List.getLast? hbefore
        simpa [List.getLast?_append, List.getLast?_cons, List.getLast?_eq_some_getLast hne]
          using hlast
      have hdigit := hchars _ (List.mem_append_right _ (List.getLast_mem hne))
      rw [hlast] at hdigit
      exact absurd hdigit (by decide)
    obtain rfl : back = "" := String.toList_eq_nil_iff.mp hback
    refine ⟨front, by simpa using hdigits, hl, ?_⟩
    simp [← String.toList_inj]

/-- The strict reader accepts just the lines that have one space somewhere before the colon, and
all else where it has to be; it reads the digits over that space.  So the lines of the strict
form are those it accepts in which the space stands before the colon. -/
theorem strict_reader_accepts (s : String) (l : ReportLine) :
    (parse true s = .ok l ↔ l.Loosely s) ∧
    (l.Strictly s ↔ parse true s = .ok l ∧ [' ', ':'] <:+: s.toList) := by
  have hread : parse true s = .ok l ↔ l.Loosely s := ⟨loosely_of_parse, parse_of_loosely⟩
  refine ⟨hread, ?_⟩
  rw [hread]
  exact strictly_iff

/-- A space among the digits is read over, and there is none before the colon. -/
theorem space_among_digits :
    parse true "1 0: f" = .ok ⟨10, ["f"]⟩ ∧ ¬∃ l : ReportLine, l.Strictly "1 0: f" := by
  refine ⟨by decide +kernel, ?_⟩
  rintro ⟨l, hl⟩
  exact absurd (strictly_iff.mp hl).2 (by decide +kernel)

end ReportLine

end CallTargets
