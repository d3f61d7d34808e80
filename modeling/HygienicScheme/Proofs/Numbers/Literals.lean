import HygienicScheme.Proofs.Numbers.Fitting
import HygienicScheme.Proofs.Reading.RoundTrip
import Mathlib.Data.List.TakeWhile

/-!
# Numbers in texts

A decimal literal is a sign, digits with at most one point and an exponent. The reader and
`string->number` test a token in different ways, one by how it starts and the other by its
characters, and both find the literals. They agree on every token, but for whole literals that do
not fit in 64 bits: the reader refuses them and `string->number` makes doubles of them.
-/
namespace HygienicScheme

namespace Decimal

/-! ## The grammar of literals -/

def IsSign (cs : List Char) : Prop := cs = [] ∨ cs = ['+'] ∨ cs = ['-']

def AllDigits (cs : List Char) : Prop := ∀ c ∈ cs, c.isDigit

def IsWhole (cs : List Char) : Prop :=
  ∃ sg ds, IsSign sg ∧ AllDigits ds ∧ ds ≠ [] ∧ cs = sg ++ ds

inductive IsMantissa : List Char → Prop
  | whole {ds : List Char} (hd : AllDigits ds) (hne : ds ≠ []) : IsMantissa ds
  | fraction {ds ps : List Char} (hd : AllDigits ds) (hp : AllDigits ps) (hne : ds ≠ [] ∨ ps ≠ []) :
      IsMantissa (ds ++ '.' :: ps)

inductive IsExponent : List Char → Prop
  | nil : IsExponent []
  | cons {c : Char} {cs : List Char} (hc : c = 'e' ∨ c = 'E') (hw : IsWhole cs) :
      IsExponent (c :: cs)

def IsLiteral (cs : List Char) : Prop :=
  ∃ sg m e, IsSign sg ∧ IsMantissa m ∧ IsExponent e ∧ cs = sg ++ (m ++ e)

variable {cs ds ps m e rest sg : List Char} {c : Char} {negative : Bool}

theorem exists_sign (cs : List Char) : ∃ sg, IsSign sg ∧ cs = sg ++ (sign cs).2 := by
  unfold sign
  split
  · exact ⟨['-'], .inr (.inr rfl), rfl⟩
  · exact ⟨['+'], .inr (.inl rfl), rfl⟩
  · exact ⟨[], .inl rfl, rfl⟩

def Leads (cs : List Char) : Prop := ∃ c more, c.isDigit ∧ (cs = c :: more ∨ cs = '.' :: c :: more)

theorem AllDigits.leads (h : AllDigits ds) (hne : ds ≠ []) : Leads (ds ++ rest) := by
  obtain ⟨c, more, rfl⟩ := List.exists_cons_of_ne_nil hne
  exact ⟨c, more ++ rest, h c List.mem_cons_self, .inl rfl⟩

theorem IsMantissa.leads (h : IsMantissa m) : Leads (m ++ e) := by
  cases h with
  | whole hd hne => exact hd.leads hne
  | @fraction ds ps hd hp hne =>
    rw [List.append_assoc]
    cases ds with
    | nil =>
      obtain ⟨c, more, rfl⟩ := List.exists_cons_of_ne_nil (hne.resolve_left (not_not_intro rfl))
      exact ⟨c, more ++ e, hp c List.mem_cons_self, .inr rfl⟩
    | cons c more => exact hd.leads (List.cons_ne_nil _ _)

theorem sign_append (h : IsSign sg) (hrest : Leads rest) : (sign (sg ++ rest)).2 = rest := by
  obtain rfl | rfl | rfl := h
  · obtain ⟨c, more, hc, rfl | rfl⟩ := hrest
    · rw [List.nil_append]
      unfold sign
      split
      · rename_i heq
        cases heq
        exact absurd hc (by decide)
      · rename_i heq
        cases heq
        exact absurd hc (by decide)
      · rfl
    · rfl
  · rfl
  · rfl

theorem isWhole_iff : IsWhole cs ↔ AllDigits (sign cs).2 ∧ (sign cs).2 ≠ [] := by
  constructor
  · rintro ⟨sg, ds, hs, hd, hne, rfl⟩
    have hleads : Leads (ds ++ []) := hd.leads hne
    rw [List.append_nil] at hleads
    rw [sign_append hs hleads]
    exact ⟨hd, hne⟩
  · rintro ⟨hd, hne⟩
    obtain ⟨sg, hs, hcs⟩ := exists_sign cs
    exact ⟨sg, _, hs, hd, hne, hcs⟩

instance : DecidablePred AllDigits :=
  fun ds => decidable_of_iff (ds.all Char.isDigit) List.all_eq_true

instance : DecidablePred IsWhole := fun _ => decidable_of_iff _ isWhole_iff.symm

theorem isWhole_iff_all : IsWhole cs ↔ !(sign cs).2.isEmpty && (sign cs).2.all Char.isDigit := by
  simp [isWhole_iff, AllDigits, and_comm]

/-! ## What the decimal reader accepts -/

def NoDigit (cs : List Char) : Prop := ∀ c ∈ cs.head?, c.isDigit = false

theorem noDigit_cons (h : c.isDigit = false) : NoDigit (c :: cs) := by
  rintro x ⟨⟩
  exact h

theorem span_digits (hd : AllDigits ds) (hrest : NoDigit rest) :
    (ds ++ rest).span Char.isDigit = (ds, rest) := by
  have hstop : rest.takeWhile Char.isDigit = [] ∧ rest.dropWhile Char.isDigit = rest := by
    cases rest with
    | nil => exact ⟨rfl, rfl⟩
    | cons c rest => simp [hrest c rfl]
  rw [List.span_eq_takeWhile_dropWhile, List.takeWhile_append_of_pos hd,
    List.dropWhile_append_of_pos hd, hstop.1, hstop.2, List.append_nil]

theorem exists_span (cs : List Char) :
    ∃ ds rest, cs = ds ++ rest ∧ AllDigits ds ∧ NoDigit rest := by
  refine ⟨cs.takeWhile Char.isDigit, cs.dropWhile Char.isDigit, ?_, ?_, ?_⟩
  · exact List.takeWhile_append_dropWhile.symm
  · exact fun c hc => List.mem_takeWhile_imp hc
  · intro c hc
    have hstop := List.head?_dropWhile_not Char.isDigit cs
    rw [Option.mem_def.mp hc] at hstop
    simpa using hstop

theorem IsExponent.noDigit (h : IsExponent e) : NoDigit e := by
  cases h with
  | nil => exact nofun
  | cons hc _ => exact noDigit_cons (by obtain rfl | rfl := hc <;> decide)

theorem IsExponent.head_ne (h : IsExponent e) : e.head? ≠ some '.' := by
  cases h with
  | nil => exact nofun
  | cons hc _ => obtain rfl | rfl := hc <;> exact nofun

namespace Literal

theorem exponent?_isSome_iff : (exponent? e).isSome ↔ IsExponent e := by
  cases e with
  | nil => exact ⟨fun _ => .nil, fun _ => rfl⟩
  | cons c cs =>
    simp only [exponent?]
    by_cases hc : c = 'e' ∨ c = 'E'
    · rw [if_pos (by simpa using hc)]
      by_cases hw : IsWhole cs
      · rw [if_pos (isWhole_iff_all.mp hw)]
        exact ⟨fun _ => .cons hc hw, fun _ => rfl⟩
      · rw [if_neg (mt isWhole_iff_all.mpr hw)]
        refine ⟨nofun, fun h => ?_⟩
        cases h with
        | cons _ hw' => exact absurd hw' hw
    · rw [if_neg (by simpa using hc)]
      refine ⟨nofun, fun h => ?_⟩
      cases h with
      | cons hc' _ => exact absurd hc' hc

theorem ofChars?_point (hs : sign cs = (negative, ds ++ '.' :: (ps ++ e))) (hd : AllDigits ds)
    (hp : AllDigits ps) (he : NoDigit e) :
    (ofChars? cs).isSome ↔ (ds ≠ [] ∨ ps ≠ []) ∧ IsExponent e := by
  simp only [ofChars?, hs, span_digits hd (noDigit_cons (c := '.') rfl), span_digits hp he]
  split_ifs with hempty
  · simp_all
  · rw [Option.isSome_map, exponent?_isSome_iff]
    exact (and_iff_right (by simpa [imp_iff_not_or] using hempty)).symm

theorem ofChars?_whole (hs : sign cs = (negative, ds ++ e)) (hd : AllDigits ds) (he : NoDigit e)
    (hpoint : e.head? ≠ some '.') : (ofChars? cs).isSome ↔ ds ≠ [] ∧ IsExponent e := by
  simp only [ofChars?, hs, span_digits hd he]
  split
  · exact absurd rfl hpoint
  · split_ifs with hempty
    · simp_all
    · rw [Option.isSome_map, exponent?_isSome_iff]
      exact (and_iff_right (by simpa using hempty)).symm

theorem ofChars?_isSome_iff : (ofChars? cs).isSome ↔ IsLiteral cs := by
  constructor
  · intro h
    obtain ⟨sg, hsg, hcs⟩ := exists_sign cs
    obtain ⟨ds, rest, hbody, hd, hrest⟩ := exists_span (sign cs).2
    have hs : sign cs = ((sign cs).1, ds ++ rest) := Prod.ext rfl hbody
    rw [hbody] at hcs
    by_cases hpoint : rest.head? = some '.'
    · obtain ⟨after, rfl⟩ := List.head?_eq_some_iff.mp hpoint
      obtain ⟨ps, e, rfl, hp, he⟩ := exists_span after
      obtain ⟨hne, hexp⟩ := (ofChars?_point hs hd hp he).mp h
      exact ⟨sg, _, e, hsg, .fraction hd hp hne, hexp, by simpa using hcs⟩
    · obtain ⟨hne, hexp⟩ := (ofChars?_whole hs hd hrest hpoint).mp h
      exact ⟨sg, ds, rest, hsg, .whole hd hne, hexp, hcs⟩
  · rintro ⟨sg, m, e, hsg, hm, he, rfl⟩
    have hs : sign (sg ++ (m ++ e)) = ((sign (sg ++ (m ++ e))).1, m ++ e) :=
      Prod.ext rfl (sign_append hsg hm.leads)
    cases hm with
    | whole hd hne => exact (ofChars?_whole hs hd he.noDigit he.head_ne).mpr ⟨hne, he⟩
    | fraction hd hp hne =>
      rw [List.append_assoc, List.cons_append] at hs ⊢
      exact (ofChars?_point hs hd hp he.noDigit).mpr ⟨hne, he⟩

end Literal

/-! ## What the tests of the two readers see of a literal -/

theorem IsWhole.isLiteral (h : IsWhole cs) : IsLiteral cs := by
  obtain ⟨sg, ds, hs, hd, hne, rfl⟩ := h
  exact ⟨sg, ds, [], hs, .whole hd hne, .nil, by rw [List.append_nil]⟩

theorem isLiteralChar_of_isDigit (h : c.isDigit) : isLiteralChar c := by
  simp [isLiteralChar, h]

theorem IsSign.isLiteralChar (h : IsSign sg) : ∀ c ∈ sg, isLiteralChar c := by
  obtain rfl | rfl | rfl := h <;> exact List.all_eq_true.mp rfl

theorem IsWhole.isLiteralChar (h : IsWhole cs) : ∀ c ∈ cs, isLiteralChar c := by
  obtain ⟨sg, ds, hs, hd, -, rfl⟩ := h
  intro c hc
  exact (List.mem_append.mp hc).elim (hs.isLiteralChar c)
    fun hc => isLiteralChar_of_isDigit (hd c hc)

theorem IsMantissa.isLiteralChar (h : IsMantissa m) : ∀ c ∈ m, isLiteralChar c := by
  cases h with
  | whole hd _ => exact fun c hc => isLiteralChar_of_isDigit (hd c hc)
  | fraction hd hp _ =>
    intro c hc
    obtain hc | hc := List.mem_append.mp hc
    · exact isLiteralChar_of_isDigit (hd c hc)
    · obtain rfl | hc := List.mem_cons.mp hc
      · decide
      · exact isLiteralChar_of_isDigit (hp c hc)

theorem IsExponent.isLiteralChar (h : IsExponent e) : ∀ c ∈ e, isLiteralChar c := by
  cases h with
  | nil => exact nofun
  | cons hc hw =>
    intro x hx
    obtain rfl | hx := List.mem_cons.mp hx
    · obtain rfl | rfl := hc <;> decide
    · exact hw.isLiteralChar x hx

theorem IsLiteral.isLiteralChar (h : IsLiteral cs) : ∀ c ∈ cs, isLiteralChar c := by
  obtain ⟨sg, m, e, hs, hm, he, rfl⟩ := h
  intro c hc
  obtain hc | hc := List.mem_append.mp hc
  · exact hs.isLiteralChar c hc
  · exact (List.mem_append.mp hc).elim (hm.isLiteralChar c) (he.isLiteralChar c)

theorem looksNumeric_iff : Reader.looksNumeric cs ↔ Leads (sign cs).2 := by
  simp only [Reader.looksNumeric]
  constructor
  · intro h
    split at h
    · rename_i more heq
      cases more with
      | nil => simp at h
      | cons c more => exact ⟨c, more, by simpa using h, .inr heq⟩
    · cases hcs : (sign cs).2 with
      | nil => simp [hcs] at h
      | cons c more => exact ⟨c, more, by simpa [hcs] using h, .inl rfl⟩
  · rintro ⟨c, more, hc, heq | heq⟩
    · rw [heq]
      split
      · rename_i heq'
        obtain ⟨rfl, rfl⟩ := List.cons.inj heq'
        exact absurd hc (by decide)
      · simpa using hc
    · rw [heq]
      simpa using hc

theorem IsLiteral.looksNumeric (h : IsLiteral cs) : Reader.looksNumeric cs := by
  obtain ⟨sg, m, e, hs, hm, -, rfl⟩ := h
  rw [looksNumeric_iff, sign_append hs hm.leads]
  exact hm.leads

theorem exists_digit (h : Reader.looksNumeric cs) : ∃ c ∈ cs, c.isDigit := by
  obtain ⟨sg, -, hcs⟩ := exists_sign cs
  obtain ⟨c, more, hc, heq | heq⟩ := looksNumeric_iff.mp h
  · exact ⟨c, by rw [hcs, heq]; simp, hc⟩
  · exact ⟨c, by rw [hcs, heq]; simp, hc⟩

theorem all_isDigit_iff (h : Reader.looksNumeric cs) :
    (sign cs).2.all Char.isDigit ↔ IsWhole cs := by
  have hne : (sign cs).2 ≠ [] := by
    obtain ⟨c, more, -, heq | heq⟩ := looksNumeric_iff.mp h <;> simp [heq]
  rw [isWhole_iff, List.all_eq_true]
  exact (and_iff_left hne).symm

def wholeValue (cs : List Char) : Int := signed (sign cs).1 (number 10 (sign cs).2)

theorem integer?_of_isWhole (h : IsWhole cs) : integer? cs = whole? (wholeValue cs) := by
  simp only [integer?]
  rw [if_pos (isWhole_iff_all.mp h), wholeValue]

theorem integer?_of_not_isWhole (h : ¬ IsWhole cs) : integer? cs = none := by
  simp only [integer?]
  rw [if_neg (mt isWhole_iff_all.mpr h)]

end Decimal

/-! ## The two readers of numbers -/

namespace Reader

open Decimal Number

variable {token : List Char} {n : Int64}

theorem atomOf_whole (hw : IsWhole token) : atomOf token = numberOf token ∧
    (sign token).2.all Char.isDigit ∧ integer? token = whole? (wholeValue token) := by
  have hlooks := hw.isLiteral.looksNumeric
  exact ⟨if_pos hlooks, (all_isDigit_iff hlooks).mpr hw, integer?_of_isWhole hw⟩

theorem atomOf_inside (hw : IsWhole token) (hn : n.toInt = wholeValue token) :
    atomOf token = .ok (.int n) := by
  obtain ⟨hatom, hdigits, hint⟩ := atomOf_whole hw
  rw [hatom, numberOf, if_pos hdigits, hint, whole?_eq_some.mpr hn]

theorem atomOf_outside (hw : IsWhole token) (hfits : ¬ Fits (wholeValue token)) :
    atomOf token = .error .integerRange := by
  obtain ⟨hatom, hdigits, hint⟩ := atomOf_whole hw
  rw [hatom, numberOf, if_pos hdigits, hint, whole?_eq_none.mpr hfits]

theorem atomOf_double {l : Literal} (hw : ¬ IsWhole token) (hl : IsLiteral token)
    (hsome : Literal.ofChars? token = some l) : atomOf token = .ok (.float l.toFloat) := by
  have hlooks := hl.looksNumeric
  rw [atomOf, if_pos hlooks, numberOf, if_neg (mt (all_isDigit_iff hlooks).mp hw), hsome]

end Reader

namespace Number

open Decimal

variable {token : List Char}

def toDatum : Number → Datum
  | int n => .int n
  | float x => .float x

inductive Verdict (token : List Char) : Option Number → Except Reader.FaultKind Datum → Prop
  | integer {n : Int64} (hw : IsWhole token) (hn : n.toInt = wholeValue token) :
      Verdict token (some (int n)) (.ok (.int n))
  | outside {x : Float} (hw : IsWhole token) (hfits : ¬ Fits (wholeValue token)) :
      Verdict token (some (float x)) (.error .integerRange)
  | double {x : Float} (hw : ¬ IsWhole token) (hl : IsLiteral token) :
      Verdict token (some (float x)) (.ok (.float x))
  | other {r : Except Reader.FaultKind Datum} (hl : ¬ IsLiteral token)
      (hr : ∀ n : Number, r ≠ .ok n.toDatum) : Verdict token none r

theorem trim_token (h : ∀ c ∈ token, Text.isBlank c = false) : Text.trim token = token := by
  have hdrop : ∀ cs : List Char, (∀ c ∈ cs, Text.isBlank c = false) →
      cs.dropWhile Text.isBlank = cs := by
    intro cs hcs
    cases cs with
    | nil => rfl
    | cons c more => simp [hcs c List.mem_cons_self]
  rw [Text.trim, hdrop token h, hdrop token.reverse (by simpa using h), List.reverse_reverse]

theorem ofText?_eq (htrim : Text.trim token = token) (hint : integer? token = none) :
    ofText? (String.ofList token) = (Literal.ofChars? token).map fun l => float l.toFloat := by
  simp only [ofText?, String.toList_ofList, htrim, hint]
  by_cases hl : IsLiteral token
  · have hdigit := exists_digit hl.looksNumeric
    have hchars := hl.isLiteralChar
    rw [if_pos (by simpa [List.any_eq_true, List.all_eq_true] using ⟨hdigit, hchars⟩)]
  · have hnone := Option.not_isSome_iff_eq_none.mp (mt Literal.ofChars?_isSome_iff.mp hl)
    rw [hnone]
    exact ite_self _

theorem verdict (h : ∀ c ∈ token, Reader.isAtomChar c) :
    Verdict token (ofText? (String.ofList token)) (Reader.atomOf token) := by
  have htrim : Text.trim token = token := trim_token fun c hc => by
    simpa using (Bool.and_eq_true_iff.mp (h c hc)).1
  by_cases hl : IsLiteral token
  · obtain ⟨l, hsome⟩ := Option.isSome_iff_exists.mp (Literal.ofChars?_isSome_iff.mpr hl)
    by_cases hw : IsWhole token
    · have hint := integer?_of_isWhole hw
      by_cases hfits : Fits (wholeValue token)
      · obtain ⟨n, hn⟩ : ∃ n : Int64, n.toInt = wholeValue token := ⟨_, toInt_ofInt hfits⟩
        have htext : ofText? (String.ofList token) = some (int n) := by
          simp only [ofText?, String.toList_ofList, htrim, hint, whole?_eq_some.mpr hn]
        rw [htext, Reader.atomOf_inside hw hn]
        exact .integer hw hn
      · rw [ofText?_eq htrim (hint.trans (whole?_eq_none.mpr hfits)), hsome,
          Reader.atomOf_outside hw hfits]
        exact .outside hw hfits
    · rw [ofText?_eq htrim (integer?_of_not_isWhole hw), hsome, Reader.atomOf_double hw hl hsome]
      exact .double hw hl
  · have hw : ¬ IsWhole token := fun hw => hl hw.isLiteral
    have hnone := Option.not_isSome_iff_eq_none.mp (mt Literal.ofChars?_isSome_iff.mp hl)
    rw [ofText?_eq htrim (integer?_of_not_isWhole hw), hnone, Reader.atomOf]
    split_ifs with hlooks
    · rw [Reader.numberOf, if_neg (mt (all_isDigit_iff hlooks).mp hw), hnone]
      exact .other hl (by simp)
    · exact .other hl fun n => by cases n <;> simp [toDatum, Datum.name]
    · exact .other hl (by simp)

end Number

namespace Reader

open Decimal Number

variable {token : List Char} {r r' : Except FaultKind Datum}

/-- A text that the reader takes for one atom. -/
structure IsToken (token : List Char) : Prop where
  ne_nil : token ≠ []
  atomChar : ∀ c ∈ token, isAtomChar c
  head_ne : token.head? ≠ some '#'

/-- The reader takes the whole token, wherever it ends, and makes this of it. -/
structure Makes (token : List Char) (r : Except FaultKind Datum) : Prop where
  scan : ∀ rest, Boundary rest → scan (token ++ rest) = atomAt (token ++ rest) r rest
  alone : parseDatum (String.ofList token) =
    r.mapError fun kind => Fault.toError ⟨kind, token⟩ token

theorem Makes.unique (h : Makes token r) (h' : Makes token r') : r = r' := by
  have heq := (h.scan [] boundary_nil).symm.trans (h'.scan [] boundary_nil)
  cases r <;> cases r' <;> simp_all [atomAt]

theorem IsToken.makes (h : IsToken token) : Makes token (atomOf token) := by
  have hscan : ∀ rest, Boundary rest →
      scan (token ++ rest) = atomAt (token ++ rest) (atomOf token) rest := by
    intro rest hrest
    obtain ⟨c, cs, rfl⟩ := List.exists_cons_of_ne_nil h.ne_nil
    have hscan := @scan_atom c (cs ++ rest) (h.atomChar c (by simp)) (by simpa using h.head_ne)
    rwa [← List.cons_append, takeWhile_token h.atomChar hrest, dropWhile_token h.atomChar hrest]
      at hscan
  refine ⟨hscan, ?_⟩
  have hread := hscan [] boundary_nil
  rw [List.append_nil] at hread
  have hskip : skipAtmosphere token = token := by
    obtain ⟨c, cs, rfl⟩ := List.exists_cons_of_ne_nil h.ne_nil
    exact skipAtmosphere_atom (h.atomChar c (by simp)) (by simpa using h.head_ne)
  rw [parseDatum, String.toList_ofList, hskip]
  split
  · exact absurd rfl h.ne_nil
  · cases hr : atomOf token with
    | error kind =>
      rw [hr, atomAt] at hread
      rw [readDatum_fault (by decide) hread]
      rfl
    | ok d =>
      rw [hr, atomAt] at hread
      rw [readDatum_constant (by decide) hread]
      simp [skipAtmosphere, Except.mapError]

theorem isAtomChar_of_isLiteralChar {c : Char} (h : isLiteralChar c) :
    isAtomChar c ∧ c ≠ '#' := by
  simp only [isLiteralChar, Bool.or_eq_true, beq_iff_eq] at h
  obtain ((((hd | rfl) | rfl) | rfl) | rfl) | rfl := h
  · exact ⟨isAtomChar_of_isDigit hd, fun h => absurd (h ▸ hd) (by decide)⟩
  all_goals decide

theorem isToken_of_isLiteral (h : IsLiteral token) : IsToken token where
  ne_nil := by
    obtain ⟨c, hc, -⟩ := exists_digit h.looksNumeric
    exact List.ne_nil_of_mem hc
  atomChar c hc := (isAtomChar_of_isLiteralChar (h.isLiteralChar c hc)).1
  head_ne hhead := by
    have hc := h.isLiteralChar '#' (List.mem_of_mem_head? hhead)
    exact (isAtomChar_of_isLiteralChar hc).2 rfl

theorem makes_inside {n : Int64} (hw : IsWhole token) (hn : n.toInt = wholeValue token) :
    Makes token (.ok (.int n)) :=
  atomOf_inside hw hn ▸ (isToken_of_isLiteral hw.isLiteral).makes

theorem makes_outside (hw : IsWhole token) (hfits : ¬ Fits (wholeValue token)) :
    Makes token (.error .integerRange) :=
  atomOf_outside hw hfits ▸ (isToken_of_isLiteral hw.isLiteral).makes

theorem makes_double (hw : ¬ IsWhole token) (hl : IsLiteral token) :
    ∃ l, Literal.ofChars? token = some l ∧ Makes token (.ok (.float l.toFloat)) := by
  obtain ⟨l, hsome⟩ := Option.isSome_iff_exists.mp (Literal.ofChars?_isSome_iff.mpr hl)
  exact ⟨l, hsome, atomOf_double hw hl hsome ▸ (isToken_of_isLiteral hl).makes⟩

end Reader

namespace Routine

open Decimal Number Reader

/-- What `string->number` gives back for a string of this text; the store stays as it is. -/
abbrev Parses (text : List Char) (id : Nat) (s : Store) (v : Value) : Prop :=
  Returns (.numeric .ofText) [.string ⟨id, String.ofList text⟩] s v s

/-- How `string->number` and the reader agree on a token. -/
structure ReadersAgree (token : List Char) (id : Nat) (s : Store) : Prop where
  returned : ∀ n : Number, Makes token (.ok n.toDatum) → Parses token id s n.toValue
  made : ∀ n : Number, Parses token id s n.toValue → Makes token (.ok n.toDatum) ∨
    IsWhole token ∧ ¬ Fits (wholeValue token) ∧ n.isFloat
  inside : IsWhole token → Fits (wholeValue token) →
    ∃ n : Int64, n.toInt = wholeValue token ∧ Makes token (.ok (.int n))
  outside : IsWhole token → ¬ Fits (wholeValue token) → Makes token (.error .integerRange) ∧
    (∃ e, parseDatum (String.ofList token) = .error e ∧ e.kind = .implementationLimit) ∧
    ∃ x, Parses token id s (.float x)
  accepted : IsLiteral token → ∃ n : Number, Parses token id s n.toValue
  rejected : ¬ IsLiteral token → Parses token id s (.bool false) ∧
    ∀ n : Number, ¬ Makes token (.ok n.toDatum)

section Tokens

variable {token : List Char} {id : Nat} {s : Store} {m n : Number}

theorem parses_ofText (token : List Char) (id : Nat) (s : Store) : Parses token id s
    (match ofText? (String.ofList token) with
      | some n => n.toValue
      | none => .bool false) :=
  answers_numeric rfl

theorem toValue_injective (h : m.toValue = n.toValue) : m = n := by
  cases m <;> cases n <;> simp_all [toValue]

theorem toDatum_injective (h : m.toDatum = n.toDatum) : m = n := by
  cases m <;> cases n <;> simp_all [toDatum]

theorem Parses.number_unique (h : Parses token id s m.toValue) (k : Parses token id s n.toValue) :
    m = n := by
  have heq := Answers.unique h k
  injection heq with hvalue
  exact toValue_injective hvalue

theorem makes_number_unique (h : Makes token (.ok m.toDatum)) (k : Makes token (.ok n.toDatum)) :
    m = n :=
  toDatum_injective (Except.ok.inj (h.unique k))

theorem readersAgree_of_both (hl : IsLiteral token) (hm : Makes token (.ok m.toDatum))
    (hp : Parses token id s m.toValue)
    (hw : IsWhole token → ∃ n : Int64, m = int n ∧ n.toInt = wholeValue token) :
    ReadersAgree token id s where
  returned n hn := makes_number_unique hm hn ▸ hp
  made n hn := .inl (hp.number_unique hn ▸ hm)
  inside h _ := by
    obtain ⟨n, rfl, hn⟩ := hw h
    exact ⟨n, hn, hm⟩
  outside h hfits := by
    obtain ⟨n, rfl, hn⟩ := hw h
    exact absurd (hn ▸ fits_toInt n) hfits
  accepted _ := ⟨m, hp⟩
  rejected h := absurd hl h

theorem readersAgree_token (h : IsToken token) (id : Nat) (s : Store) :
    ReadersAgree token id s := by
  have hparses := parses_ofText token id s
  have hmakes := h.makes
  have hverdict := verdict h.atomChar
  generalize ofText? (String.ofList token) = parsed at hparses hverdict
  generalize atomOf token = r at hmakes hverdict
  cases hverdict with
  | @integer n hw hn =>
    exact readersAgree_of_both hw.isLiteral (m := int n) hmakes hparses fun _ => ⟨n, rfl, hn⟩
  | @double x hw hl =>
    exact readersAgree_of_both hl (m := float x) hmakes hparses fun h => absurd h hw
  | @outside x hw hfits =>
    have hp : Parses token id s (float x).toValue := hparses
    exact {
      returned := fun n hn => nomatch hmakes.unique hn
      made := fun n hn => .inr ⟨hw, hfits, hp.number_unique hn ▸ rfl⟩
      inside := fun _ h => absurd h hfits
      outside := fun _ _ => ⟨hmakes, ⟨_, hmakes.alone, rfl⟩, x, hparses⟩
      accepted := fun _ => ⟨_, hp⟩
      rejected := fun h => absurd hw.isLiteral h }
  | other hl hr =>
    exact {
      returned := fun n hn => absurd (hmakes.unique hn) (hr n)
      made := fun n hn => by
        have heq := Answers.unique hparses hn
        cases n <;> cases heq
      inside := fun h => absurd h.isLiteral hl
      outside := fun h => absurd h.isLiteral hl
      accepted := fun h => absurd h hl
      rejected := fun _ => ⟨hparses, fun n hn => hr n (hmakes.unique hn)⟩ }

end Tokens

theorem returns_numeral (n : Int64) (s : Store) : Returns (.numeric .toText) [.int n] s
    (.string ⟨s.strings, String.ofList (numeral n.toInt)⟩) { s with strings := s.strings + 1 } := by
  have htext : s.writeText (.int n) = String.ofList (numeral n.toInt) := by
    have hheld : s.Holds (.int n) (.int n) := .int n
    have hwritten := hheld.writeText (by simp [Datum.nodes, Store.printBudget])
    rw [Datum.written, Datum.atomText, toList_toString_int] at hwritten
    · exact String.toList_inj.mp (by rw [hwritten, String.toList_ofList])
    · simp
    · simp
  rw [← htext]
  exact answers_numeric rfl

theorem isWhole_numeral (n : Int) : IsWhole (numeral n) := by
  rw [isWhole_iff, sign_numeral]
  exact ⟨fun c hc => List.all_eq_true.mp (all_isDigit_toDigits _) c hc, Nat.toDigits_ne_nil⟩

theorem makes_numeral (n : Int64) : Makes (numeral n.toInt) (.ok (.int n)) :=
  makes_inside (isWhole_numeral _) (by rw [wholeValue, sign_numeral, signed_numeral])

theorem parses_numeral (n : Int64) (id : Nat) (s : Store) :
    Parses (numeral n.toInt) id s (.int n) :=
  (readersAgree_token (isToken_of_isLiteral (isWhole_numeral _).isLiteral) id s).returned (int n)
    (makes_numeral n)

theorem readers_agree (s : Store) :
    (∀ token id, IsToken token → ReadersAgree token id s) ∧
    ∀ n : Int64, ∃ id text t,
      Returns (.numeric .toText) [.int n] s (.string ⟨id, String.ofList text⟩) t ∧
        Makes text (.ok (.int n)) ∧ Parses text id t (.int n) :=
  ⟨fun _ id h => readersAgree_token h id s,
    fun n => ⟨_, _, _, returns_numeral n s, makes_numeral n, parses_numeral n _ _⟩⟩

theorem readers_agree_above : Makes "9223372036854775808".toList (.error .integerRange) ∧
    ∃ x, Parses "9223372036854775808".toList 0 .empty (.float x) := by
  have hagree : ReadersAgree "9223372036854775808".toList 0 .empty :=
    (readers_agree .empty).1 _ 0 ⟨by decide, List.all_eq_true.mp rfl, by decide⟩
  obtain ⟨hmakes, -, hparses⟩ := hagree.outside (by decide) (by decide)
  exact ⟨hmakes, hparses⟩

end Routine

end HygienicScheme
