import HygienicScheme.Proofs.Printing.Written
import HygienicScheme.Reader.Source
import Mathlib.Tactic.IntervalCases

/-!
# Scanning what was printed

A token ends where the text ends or a character comes that no atom has. Every constant is scanned
back from its printed text in front of such a place. Symbols are taken as the reader takes them: a
name counts when reading it alone gives the symbol of that name. When a whole text is read as the
symbol of that text, the text is a single atom: nothing in it can be atmosphere, a comment or a
bracket, because then the symbol would be shorter than the text.
-/
namespace HygienicScheme.Reader

def Boundary (rest : List Char) : Prop := ∀ c ∈ rest.head?, isAtomChar c = false

theorem boundary_nil : Boundary [] := by simp [Boundary]

theorem boundary_cons {c : Char} {rest : List Char} (h : isAtomChar c = false) :
    Boundary (c :: rest) := by
  simpa [Boundary] using h

theorem boundary_blank (rest : List Char) : Boundary (' ' :: rest) := boundary_cons (by decide)

theorem boundary_close (rest : List Char) : Boundary (')' :: rest) := boundary_cons (by decide)

variable {cs rest : List Char} {x : Symbol}

theorem Boundary.takeWhile (hrest : Boundary rest) : rest.takeWhile isAtomChar = [] := by
  cases rest with
  | nil => rfl
  | cons c rest => simp [hrest c (by simp)]

theorem Boundary.dropWhile (hrest : Boundary rest) : rest.dropWhile isAtomChar = rest := by
  cases rest with
  | nil => rfl
  | cons c rest => simp [hrest c (by simp)]

theorem takeWhile_token {token : List Char} (h : ∀ c ∈ token, isAtomChar c)
    (hrest : Boundary rest) : (token ++ rest).takeWhile isAtomChar = token := by
  rw [List.takeWhile_append_of_pos h, hrest.takeWhile, List.append_nil]

theorem dropWhile_token {token : List Char} (h : ∀ c ∈ token, isAtomChar c)
    (hrest : Boundary rest) : (token ++ rest).dropWhile isAtomChar = rest := by
  rw [List.dropWhile_append_of_pos h, hrest.dropWhile]

theorem scan_atom {c : Char} {cs : List Char} (hc : isAtomChar c) (hash : c ≠ '#') :
    scan (c :: cs) = atomAt (c :: cs) (atomOf ((c :: cs).takeWhile isAtomChar))
      ((c :: cs).dropWhile isAtomChar) := by
  unfold scan
  split
  all_goals
    rename_i heq
    cases heq
  all_goals
    first
    | exact absurd hc (by decide)
    | exact absurd rfl hash
    | rw [if_pos hc]

theorem scan_token {token : List Char} {d : Datum} (hne : token ≠ [])
    (h : ∀ c ∈ token, isAtomChar c) (hash : token.head? ≠ some '#') (hd : atomOf token = .ok d)
    (hrest : Boundary rest) : scan (token ++ rest) = .ok (.constant d, rest) := by
  obtain ⟨c, cs, rfl⟩ := List.exists_cons_of_ne_nil hne
  have hscan := @scan_atom c (cs ++ rest) (h c (by simp)) (by simpa using hash)
  rw [← List.cons_append, takeWhile_token h hrest, dropWhile_token h hrest, hd] at hscan
  exact hscan

theorem scan_bool (b : Bool) (hrest : Boundary rest) :
    scan ((Datum.bool b).atomText ++ rest) = .ok (.constant (.bool b), rest) := by
  let name := [if b then 't' else 'f']
  have hname : ∀ c ∈ name, isAtomChar c := List.all_eq_true.mp (by cases b <;> rfl)
  have hscan : scan ((Datum.bool b).atomText ++ rest) =
      atomAt ((Datum.bool b).atomText ++ rest)
        (hashAtomOf ((name ++ rest).takeWhile isAtomChar))
        ((name ++ rest).dropWhile isAtomChar) := by
    cases b <;> rfl
  rw [hscan, takeWhile_token hname hrest, dropWhile_token hname hrest]
  cases b <;> rfl

theorem scan_character {first c : Char} {more : List Char} (h : ∀ x ∈ more, isAtomChar x)
    (hc : characterOf first more = .ok (.char c)) (hrest : Boundary rest) :
    scan ('#' :: '\\' :: first :: (more ++ rest)) = .ok (.constant (.char c), rest) := by
  simp [scan, takeWhile_token h hrest, dropWhile_token h hrest, hc, atomAt]

theorem scan_char (c : Char) (hrest : Boundary rest) :
    scan ((Datum.char c).atomText ++ rest) = .ok (.constant (.char c), rest) := by
  rw [Datum.atomText]
  unfold Store.charText
  rw [if_neg (by decide)]
  split_ifs with hspace hnewline htab
  · subst hspace
    have hname : ∀ x ∈ "pace".toList, isAtomChar x := List.all_eq_true.mp rfl
    exact scan_character hname rfl hrest
  · subst hnewline
    have hname : ∀ x ∈ "ewline".toList, isAtomChar x := List.all_eq_true.mp rfl
    exact scan_character hname rfl hrest
  · subst htab
    have hname : ∀ x ∈ "ab".toList, isAtomChar x := List.all_eq_true.mp rfl
    exact scan_character hname rfl hrest
  · have htext : ("#\\" ++ c.toString).toList = ['#', '\\', c] := by simp
    rw [htext]
    have hname : ∀ x ∈ ([] : List Char), isAtomChar x := by simp
    exact scan_character hname rfl hrest

theorem stringBody_escape (text : List Char) (c : Char) (cs : List Char) :
    stringBody text (Store.escape c ++ cs) = stringBody (c :: text) cs := by
  unfold Store.escape
  split_ifs with hquote hslash hnewline htab hreturn
  · subst hquote; simp [stringBody]
  · subst hslash; simp [stringBody]
  · subst hnewline; simp [stringBody]
  · subst htab; simp [stringBody]
  · subst hreturn; simp [stringBody]
  · simp [stringBody]

theorem stringBody_escapes (text cs : List Char) :
    stringBody text (cs.flatMap Store.escape ++ '"' :: rest) = .ok (text.reverse ++ cs, rest) := by
  induction cs generalizing text with
  | nil => simp [stringBody]
  | cons c cs ih =>
    rw [List.flatMap_cons, List.append_assoc, stringBody_escape, ih, List.reverse_cons,
      List.append_assoc, List.singleton_append]

theorem scan_string (text : String) :
    scan ((Datum.string text).atomText ++ rest) = .ok (.constant (.string text), rest) := by
  have htext : (Datum.string text).atomText ++ rest =
      '"' :: (text.toList.flatMap Store.escape ++ '"' :: rest) := by
    simp [Datum.atomText, Store.stringText]
  simp [htext, scan, stringBody_escapes, bind, Except.bind, pure, Except.pure]

theorem number_digits (n : Nat) : Decimal.number 10 (Nat.toDigits 10 n) = n := by
  have hvalue : ∀ m : Nat, ∀ c ∈ Nat.toDigits 10 n,
      10 * m + Decimal.digitValue c = 10 * m + (c.toNat - '0'.toNat) := by
    intro m c hc
    rw [Decimal.digitValue, if_pos (Nat.isDigit_of_mem_toDigits (by decide) (by decide) hc)]
  have hdigits := Nat.ofDigitChars_ten_toDigits (n := n)
  rw [Nat.ofDigitChars_eq_foldl] at hdigits
  exact (List.foldl_ext _ _ _ hvalue).trans hdigits

theorem whole?_toInt (n : Int64) : Decimal.whole? n.toInt = some n := by
  rw [Decimal.whole?, if_pos ⟨Int64.minValue_le_toInt n, Int64.toInt_le n⟩, Int64.ofInt_toInt]

theorem isAtomChar_of_isDigit {c : Char} (h : c.isDigit) : isAtomChar c := by
  have hc : 48 ≤ c.toNat ∧ c.toNat ≤ 57 := by
    simpa [Char.isDigit, UInt32.le_iff_toNat_le] using h
  obtain ⟨hlow, hhigh⟩ := hc
  rw [← Char.ofNat_toNat c]
  interval_cases c.toNat <;> decide

def numeral (n : Int) : List Char :=
  if n < 0 then '-' :: Nat.toDigits 10 n.natAbs else Nat.toDigits 10 n.natAbs

theorem toList_toString_int (n : Int) : (toString n).toList = numeral n := by
  cases n with
  | ofNat n => simp [numeral, toString, Int.repr, Nat.toList_repr]
  | negSucc n => simp [numeral, toString, Int.repr, Nat.toList_repr]

theorem sign_numeral (n : Int) :
    Decimal.sign (numeral n) = (decide (n < 0), Nat.toDigits 10 n.natAbs) := by
  unfold numeral
  split_ifs with h
  · simp [Decimal.sign, h]
  · obtain ⟨c, cs, hcs⟩ :=
      List.exists_cons_of_ne_nil (Nat.toDigits_ne_nil (n := n.natAbs) (b := 10))
    have hc : c.isDigit := Nat.isDigit_of_mem_toDigits (b := 10) (n := n.natAbs) (by decide)
      (by decide) (by simp [hcs])
    rw [hcs]
    unfold Decimal.sign
    split
    · simp_all
    · simp_all
    · simp [h]

theorem all_isDigit_toDigits (n : Nat) : (Nat.toDigits 10 n).all Char.isDigit :=
  List.all_eq_true.mpr fun _ hc => Nat.isDigit_of_mem_toDigits (by decide) (by decide) hc

theorem signed_numeral (n : Int) :
    Decimal.signed (decide (n < 0)) (Decimal.number 10 (Nat.toDigits 10 n.natAbs)) = n := by
  rw [number_digits]
  by_cases h : n < 0
  · rw [Decimal.signed, decide_eq_true h, if_pos rfl]
    omega
  · rw [Decimal.signed, decide_eq_false h, if_neg (by decide)]
    omega

theorem looksNumeric_numeral (n : Int) : looksNumeric (numeral n) := by
  obtain ⟨c, cs, hcs⟩ := List.exists_cons_of_ne_nil (Nat.toDigits_ne_nil (n := n.natAbs) (b := 10))
  have hc : c.isDigit := List.all_eq_true.mp (all_isDigit_toDigits n.natAbs) c (by simp [hcs])
  simp only [looksNumeric, sign_numeral, hcs]
  split
  · rename_i heq
    obtain ⟨rfl, rfl⟩ := List.cons.inj heq
    exact absurd hc (by decide)
  · simpa using hc

theorem atomOf_numeral (n : Int64) : atomOf (numeral n.toInt) = .ok (.int n) := by
  have hint : Decimal.integer? (numeral n.toInt) = some n := by
    simp [Decimal.integer?, sign_numeral, all_isDigit_toDigits, signed_numeral, whole?_toInt,
      Nat.toDigits_ne_nil]
  simp [atomOf, looksNumeric_numeral, numberOf, sign_numeral, all_isDigit_toDigits, hint]

theorem numeral_ne_nil (n : Int) : numeral n ≠ [] := by
  unfold numeral
  split_ifs
  · exact List.cons_ne_nil _ _
  · exact Nat.toDigits_ne_nil

theorem isAtomChar_of_mem_numeral {n : Int} {c : Char} (hc : c ∈ numeral n) :
    isAtomChar c ∧ c ≠ '#' := by
  have hcases : c = '-' ∨ c.isDigit := by
    have hdigit : ∀ c ∈ Nat.toDigits 10 n.natAbs, c.isDigit :=
      fun c hc => List.all_eq_true.mp (all_isDigit_toDigits _) c hc
    unfold numeral at hc
    split_ifs at hc
    · exact (List.mem_cons.mp hc).imp_right (hdigit c)
    · exact .inr (hdigit c hc)
  rcases hcases with rfl | hc
  · decide
  · exact ⟨isAtomChar_of_isDigit hc, fun h => absurd (h ▸ hc) (by decide)⟩

theorem numeral_head_ne (n : Int) : (numeral n).head? ≠ some '#' :=
  fun h => (isAtomChar_of_mem_numeral (List.mem_of_mem_head? h)).2 rfl

theorem scan_int (n : Int64) (hrest : Boundary rest) :
    scan ((Datum.int n).atomText ++ rest) = .ok (.constant (.int n), rest) := by
  rw [Datum.atomText, toList_toString_int]
  exact scan_token (numeral_ne_nil _) (fun c hc => (isAtomChar_of_mem_numeral hc).1)
    (numeral_head_ne _) (atomOf_numeral n) hrest

/-! ### Names that read as symbols -/

structure SymbolToken (x : Symbol) : Prop where
  ne_nil : x.name.toList ≠ []
  atomChar : ∀ c ∈ x.name.toList, isAtomChar c
  head_ne : x.name.toList.head? ≠ some '#'
  atomOf_eq : atomOf x.name.toList = .ok (.symbol x)

theorem SymbolToken.scan_eq (h : SymbolToken x) (hrest : Boundary rest) :
    scan (x.name.toList ++ rest) = .ok (.constant (.symbol x), rest) :=
  scan_token h.ne_nil h.atomChar h.head_ne h.atomOf_eq hrest

theorem atomAt_eq_ok {start rest rest' : List Char} {result : Except FaultKind Datum} {d : Datum}
    (h : atomAt start result rest = .ok (.constant d, rest')) : result = .ok d ∧ rest = rest' := by
  cases result with
  | error kind => cases h
  | ok e => cases h; exact ⟨rfl, rfl⟩

theorem hashAtomOf_ne_symbol (token : List Char) : hashAtomOf token ≠ .ok (.symbol x) := by
  unfold hashAtomOf
  split
  all_goals try simp
  split_ifs
  · simp
  · split <;> simp
  · simp

theorem characterOf_ne_symbol (c : Char) (more : List Char) :
    characterOf c more ≠ .ok (.symbol x) := by
  unfold characterOf
  split_ifs
  · simp
  · split <;> simp

theorem atomOf_eq_symbol {token : List Char} (h : atomOf token = .ok (.symbol x)) :
    x.name.toList = token := by
  unfold atomOf at h
  split_ifs at h
  · unfold numberOf at h
    split_ifs at h <;> split at h <;> cases h
  · cases h
    simp [Symbol.user]

theorem scan_eq_symbol (h : scan cs = .ok (.constant (.symbol x), rest)) :
    SymbolToken x ∧ x.name.toList ++ rest = cs := by
  unfold scan at h
  split at h
  case h_8 =>
    simp only [bind, Except.bind, pure, Except.pure] at h
    split at h <;> simp at h
  case h_11 => exact absurd (atomAt_eq_ok h).1 (characterOf_ne_symbol _ _)
  case h_12 => exact absurd (atomAt_eq_ok h).1 (hashAtomOf_ne_symbol _)
  case h_13 c tail _ _ _ _ _ _ _ _ _ _ hash =>
    split at h
    case isFalse => cases h
    case isTrue hc =>
      obtain ⟨hatom, rfl⟩ := atomAt_eq_ok h
      have htoken := atomOf_eq_symbol hatom
      have hhead : x.name.toList.head? = some c := by rw [htoken]; simp [hc]
      refine ⟨⟨?_, ?_, ?_, htoken.symm ▸ hatom⟩, ?_⟩
      · intro hnil
        simp [hnil] at hhead
      · rw [htoken]
        exact List.all_eq_true.mp List.all_takeWhile
      · rw [hhead]
        simpa using hash
      · rw [htoken, List.takeWhile_append_dropWhile]
  all_goals simp at h

theorem readItems_ne_nil {cs : List Char} {close : Char} {depth : Nat} {seen items : List Datum}
    {tail : Datum} {r : Rest cs} (h : readItems close depth seen cs = .ok (items, tail, r)) :
    seen.length ≤ items.length ∧ (items = [] → tail = .null) := by
  rw [readItems] at h
  split at h
  · cases h
  · rename_i c rest hcs
    split_ifs at h with hclose hbracket hdot hempty
    · cases h
      simp
    · split at h
      · cases h
      · split at h
        · cases h
        · cases h
          simp_all
    · split at h
      · cases h
      · rename_i item rest' hd hitem
        split at h
        · cases h
        · rename_i hmore
          cases h
          have hshort : rest'.length < cs.length :=
            Nat.lt_of_lt_of_le hd (hcs ▸ skipAtmosphere_length cs)
          obtain ⟨hseen, -⟩ := readItems_ne_nil hmore
          rw [List.length_cons] at hseen
          exact ⟨by omega, fun hnil => by simp [hnil] at hseen⟩
termination_by cs.length

/-- A symbol is no longer than the text it was read from, and as long only if it is its token. -/
theorem readDatum_eq_symbol {cs : List Char} {depth : Nat} {r : Rest cs}
    (h : readDatum depth cs = .ok (.symbol x, r)) :
    x.name.toList.length + r.1.length ≤ cs.length ∧
      (cs.length ≤ x.name.toList.length + r.1.length →
        scan cs = .ok (.constant (.symbol x), r.1)) := by
  rw [readDatum] at h
  split_ifs at h with hdepth
  split at h
  · cases h
  · rename_i d rest hscan
    cases h
    have hlength := congrArg List.length (scan_eq_symbol hscan).2
    rw [List.length_append] at hlength
    exact ⟨Nat.le_of_eq hlength, fun _ => hscan⟩
  · split at h
    · cases h
    · rename_i items tail rest hitems
      -- A list is no symbol.
      have hnil := (readItems_ne_nil hitems).2
      cases items with
      | nil => simp [hnil rfl, Datum.listWithTail] at h
      | cons item items => simp [Datum.listWithTail] at h
  · split at h
    · cases h
    · cases h
    · cases h
  · split at h
    · cases h
    · cases h
  · rename_i rest hscan
    split at h
    · cases h
    · rename_i rest' hd hread'
      split at h
      · cases h
      · rename_i r' hread
        cases h
        have hprogress := scan_progress hscan
        have hskip := skipAtmosphere_length rest
        have hskip' := skipAtmosphere_length rest'
        -- Behind a datum comment the symbol is shorter than the text.
        have hshort : (skipAtmosphere rest').length < cs.length := by omega
        have ih := (readDatum_eq_symbol hread).1
        have hle : x.name.toList.length + r'.1.length < cs.length := by omega
        exact ⟨Nat.le_of_lt hle, fun hge => absurd hge (Nat.not_le.mpr hle)⟩
termination_by cs.length

theorem symbolToken_of_parseDatum (h : parseDatum x.name = .ok (.symbol x)) : SymbolToken x := by
  simp only [parseDatum] at h
  split at h
  · cases h
  · split at h
    · cases h
    · rename_i r hread
      split at h
      · cases h
        obtain ⟨hle, hscan⟩ := readDatum_eq_symbol hread
        have hs := skipAtmosphere_length x.name.toList
        exact (scan_eq_symbol (hscan (by omega))).1
      · cases h

end HygienicScheme.Reader
