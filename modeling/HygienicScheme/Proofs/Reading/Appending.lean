import HygienicScheme.Proofs.Reading.Derivations
import Mathlib.Data.List.TakeWhile

/-!
# Reading a text with more behind it

What has been read from a text is read in the same way when a blank and any other text follow. A
token depends on no more of what follows it than whether its first character can be taken in,
atmosphere that was skipped is skipped again, and where the first text has been read to its end a
text on new lines is read as if it stood alone.
-/
namespace HygienicScheme.Reader

variable {cs rest rest' b : List Char} {t : Token} {d tail : Datum} {depth : Nat} {close c x : Char}
  {seen items : List Datum}

theorem boundary_line (b : List Char) : Boundary ('\n' :: b) := boundary_cons (by decide)

theorem takeWhile_append_boundary (h : Boundary b) (cs : List Char) :
    (cs ++ b).takeWhile isAtomChar = cs.takeWhile isAtomChar := by
  induction cs with
  | nil => exact h.takeWhile
  | cons c cs ih => simp only [List.cons_append, List.takeWhile_cons, ih]

theorem dropWhile_append_boundary (h : Boundary b) (cs : List Char) :
    (cs ++ b).dropWhile isAtomChar = cs.dropWhile isAtomChar ++ b := by
  induction cs with
  | nil => exact h.dropWhile
  | cons c cs ih =>
    simp only [List.cons_append, List.dropWhile_cons, ih]
    split <;> rfl

theorem isAtomChar_of_isSpace (h : isSpace c) : isAtomChar c = false := by
  simp only [isSpace, Bool.or_eq_true, beq_iff_eq] at h
  rcases h with ((rfl | rfl) | rfl) | rfl <;> decide

/-! ### What follows a token -/

def Parted (rest rest' : List Char) : Prop := ∀ c ∈ rest'.head?, isSpace c ∨ c ∈ rest.head?

theorem parted_space (hx : isSpace x) (rest b : List Char) : Parted rest (x :: b) := by
  rintro c hc
  cases hc
  exact .inl hx

theorem parted_cons (c : Char) (rest rest' : List Char) : Parted (c :: rest) (c :: rest') :=
  fun _ hc => .inr hc

theorem parted_append (hx : isSpace x) (rest b : List Char) : Parted rest (rest ++ x :: b) := by
  cases rest with
  | nil => exact parted_space hx [] b
  | cons c rest => exact parted_cons c _ _

theorem Parted.boundary (h : Parted rest rest') (hrest : Boundary rest) : Boundary rest' := by
  intro c hc
  rcases h c hc with hspace | hhead
  · exact isAtomChar_of_isSpace hspace
  · exact hrest c hhead

theorem Parted.ne_cons (h : Parted rest rest') (hc : isSpace c = false)
    (hrest : ∀ more, rest = c :: more → False) : ∀ more, rest' = c :: more → False := by
  rintro more rfl
  rcases h c rfl with hspace | hhead
  · exact Bool.false_ne_true (hc.symm.trans hspace)
  · obtain ⟨more, hmore⟩ := List.head?_eq_some_iff.mp hhead
    exact hrest more hmore

theorem atomAt_ok {start more : List Char} {result : Except FaultKind Datum}
    (h : atomAt start result more = .ok (t, rest)) :
    ∃ d, result = .ok d ∧ t = .constant d ∧ rest = more := by
  cases result with
  | error kind => cases h
  | ok d =>
    cases h
    exact ⟨d, rfl, rfl, rfl⟩

theorem atom_of_dropWhile {u : List Char} (h : rest = (u ++ rest).dropWhile isAtomChar) :
    (∀ c ∈ u, isAtomChar c) ∧ Boundary rest := by
  constructor
  · have hall := List.takeWhile_append_dropWhile (p := isAtomChar) (l := u ++ rest)
    rw [← h] at hall
    rw [← List.append_cancel_right hall]
    exact fun c hc => List.mem_takeWhile_imp hc
  · intro c hc
    rw [h] at hc
    have hhead := List.head?_dropWhile_not isAtomChar (u ++ rest)
    rw [Option.mem_def.mp hc] at hhead
    simpa using hhead

theorem stringBody_suffix {text cs : List Char} {r : List Char × List Char}
    (h : stringBody text cs = .ok r) : r.2 <:+ cs := by
  fun_induction stringBody text cs generalizing r with
  | case1 text rest =>
    cases h
    exact List.suffix_cons _ _
  | case2 text cs ih | case3 text cs ih | case4 text cs ih | case5 text cs ih | case6 text cs ih =>
    exact ((ih h).trans (List.suffix_cons _ _)).trans (List.suffix_cons _ _)
  | case7 | case8 | case10 => cases h
  | case9 text c cs _ _ ih => exact (ih h).trans (List.suffix_cons _ _)

theorem stringBody_append {text cs : List Char} {r : List Char × List Char}
    (h : stringBody text cs = .ok r) (b : List Char) :
    stringBody text (cs ++ b) = .ok (r.1, r.2 ++ b) := by
  fun_induction stringBody text cs generalizing r with
  | case1 text rest =>
    cases h
    rfl
  | case2 text cs ih | case3 text cs ih | case4 text cs ih | case5 text cs ih | case6 text cs ih =>
    exact ih h
  | case7 text => cases h
  | case8 text cs => cases h
  | case9 text c cs hquote hslash ih =>
    rw [List.cons_append, stringBody]
    · exact ih h
    · exact hquote
    · exact hslash
  | case10 text => cases h

theorem ne_cons_append {x y : Char} (h : ∀ more, x :: cs = y :: more → False) :
    ∀ more, x :: (cs ++ b) = y :: more → False :=
  fun _ hmore => h cs (by rw [(List.cons.inj hmore).1])

theorem stringBody_cut {text u r : List Char} (h : stringBody text (u ++ rest) = .ok (r, rest)) :
    stringBody text u = .ok (r, []) := by
  fun_induction stringBody text u with
  | case1 text cs =>
    obtain ⟨rfl, hrest⟩ := Prod.mk.inj (Except.ok.inj h)
    rw [List.append_left_eq_self.mp hrest]
  | case2 text cs ih | case3 text cs ih | case4 text cs ih | case5 text cs ih | case6 text cs ih =>
    exact ih h
  | case7 text =>
    -- The character behind the backslash would have to be part of what is left.
    have hlength (text more : List Char) : stringBody text more = .ok (r, rest) →
        rest.length < more.length := stringBody_length
    unfold stringBody at h
    split at h
    · grind
    · split at h
      all_goals grind
    · grind
    · cases h
  | case8 text cs hn ht hr hslash hquote hnil =>
    obtain ⟨x, more, rfl⟩ := List.exists_cons_of_ne_nil (fun hcs => hnil hcs)
    rw [List.cons_append, List.cons_append, stringBody] at h
    · cases h
    · exact ne_cons_append hn
    · exact ne_cons_append ht
    · exact ne_cons_append hr
    · exact ne_cons_append hslash
    · exact ne_cons_append hquote
    · simp
  | case9 text c cs hquote hslash ih =>
    rw [List.cons_append, stringBody] at h
    · exact ih h
    · exact hquote
    · exact hslash
  | case10 text => exact absurd (stringBody_length h) (Nat.lt_irrefl _)

section Atoms

variable {u : List Char} {c : Char} (hparted : Parted rest rest')

include hparted

theorem character_congr {first : Char} {more : List Char} (hcs : u ++ rest = '\\' :: first :: more)
    (h : atomAt ('#' :: (u ++ rest)) (characterOf first (more.takeWhile isAtomChar))
      (more.dropWhile isAtomChar) = .ok (t, rest)) :
    scan ('#' :: (u ++ rest')) = .ok (t, rest') := by
  obtain ⟨d, hd, rfl, hrest⟩ := atomAt_ok h
  have hmore := List.takeWhile_append_dropWhile (p := isAtomChar) (l := more)
  rw [← hrest] at hmore
  obtain rfl : u = '\\' :: first :: more.takeWhile isAtomChar := by
    rw [← hmore] at hcs
    exact List.append_cancel_right hcs
  obtain ⟨hatom, hboundary⟩ := atom_of_dropWhile (hmore.symm ▸ hrest)
  have hboundary' := hparted.boundary hboundary
  simp only [List.cons_append, scan, takeWhile_token hatom hboundary',
    dropWhile_token hatom hboundary', hd, atomAt]

theorem hashAtom_congr (hcharacter : ∀ first more, u ++ rest = '\\' :: first :: more → False)
    (h : atomAt ('#' :: (u ++ rest)) (hashAtomOf ((u ++ rest).takeWhile isAtomChar))
      ((u ++ rest).dropWhile isAtomChar) = .ok (t, rest)) :
    scan ('#' :: (u ++ rest')) = .ok (t, rest') := by
  obtain ⟨d, hd, rfl, hrest⟩ := atomAt_ok h
  obtain ⟨hatom, hboundary⟩ := atom_of_dropWhile hrest
  have hboundary' := hparted.boundary hboundary
  rw [takeWhile_token hatom hboundary] at hd
  have hslash : u ≠ ['\\'] := by
    rintro rfl
    cases hd
  obtain ⟨x, u, rfl⟩ : ∃ x u', u = x :: u' := List.exists_cons_of_ne_nil (by
    rintro rfl
    cases hd)
  have hx := hatom x List.mem_cons_self
  rw [scan, takeWhile_token hatom hboundary', dropWhile_token hatom hboundary', hd]
  · rfl
  · rintro more hmore
    cases hmore
    cases hx
  · rintro more hmore
    cases hmore
    cases hx
  · rintro first more hmore
    cases u with
    | nil =>
      cases hmore
      exact hslash rfl
    | cons y u =>
      cases hmore
      exact hcharacter _ _ rfl

theorem atom_congr (hc : isAtomChar c) (hhash : c ≠ '#')
    (h : atomAt (c :: (u ++ rest)) (atomOf ((c :: (u ++ rest)).takeWhile isAtomChar))
      ((c :: (u ++ rest)).dropWhile isAtomChar) = .ok (t, rest)) :
    scan (c :: (u ++ rest')) = .ok (t, rest') := by
  obtain ⟨d, hd, rfl, hrest⟩ := atomAt_ok h
  rw [← List.cons_append] at hd hrest
  obtain ⟨hatom, hboundary⟩ := atom_of_dropWhile hrest
  have hboundary' := hparted.boundary hboundary
  rw [takeWhile_token hatom hboundary] at hd
  rw [scan_atom hc hhash, ← List.cons_append, takeWhile_token hatom hboundary',
    dropWhile_token hatom hboundary', hd]
  rfl

end Atoms

theorem scan_congr {u : List Char} (h : scan (u ++ rest) = .ok (t, rest))
    (hparted : Parted rest rest') : scan (u ++ rest') = .ok (t, rest') := by
  cases u with
  | nil => exact absurd (scan_progress h) (Nat.lt_irrefl _)
  | cons c u =>
    rw [List.cons_append] at h
    -- A token of fixed length stands in `u` alone; any other ends where the rest begins.
    unfold scan at h
    split at h
    case h_1 heq => cases heq
    case h_2 heq | h_3 heq | h_4 heq | h_5 heq =>
      cases heq
      obtain ⟨rfl, hrest⟩ := Prod.mk.inj (Except.ok.inj h)
      rw [List.append_left_eq_self.mp hrest]
      rfl
    case h_6 more heq =>
      obtain ⟨rfl, hcs⟩ := List.cons.inj heq
      obtain ⟨rfl, rfl⟩ := Prod.mk.inj (Except.ok.inj h)
      obtain rfl : u = ['@'] := List.append_cancel_right hcs
      rfl
    case h_7 hsplicing heq =>
      obtain ⟨rfl, rfl⟩ := List.cons.inj heq
      obtain ⟨rfl, hrest⟩ := Prod.mk.inj (Except.ok.inj h)
      obtain rfl := List.append_left_eq_self.mp hrest
      rw [List.singleton_append, scan]
      exact hparted.ne_cons rfl fun more hmore => hsplicing more hmore
    case h_8 body heq =>
      obtain ⟨rfl, rfl⟩ := List.cons.inj heq
      cases hbody : stringBody [] (u ++ rest) with
      | error f =>
        rw [hbody] at h
        cases h
      | ok r =>
        rw [hbody] at h
        cases h
        rw [List.cons_append, scan, stringBody_append (stringBody_cut hbody)]
        rfl
    case h_9 more heq =>
      obtain ⟨rfl, hcs⟩ := List.cons.inj heq
      obtain ⟨rfl, rfl⟩ := Prod.mk.inj (Except.ok.inj h)
      obtain rfl : u = [';'] := List.append_cancel_right hcs
      rfl
    case h_10 more heq =>
      obtain ⟨rfl, hcs⟩ := List.cons.inj heq
      obtain ⟨rfl, rfl⟩ := Prod.mk.inj (Except.ok.inj h)
      obtain rfl : u = ['('] := List.append_cancel_right hcs
      rfl
    case h_11 first more heq =>
      obtain ⟨rfl, hcs⟩ := List.cons.inj heq
      exact character_congr hparted hcs h
    case h_12 more hcomment hvector hcharacter heq =>
      obtain ⟨rfl, rfl⟩ := List.cons.inj heq
      exact hashAtom_congr hparted hcharacter h
    case h_13 hhash heq =>
      obtain ⟨rfl, rfl⟩ := List.cons.inj heq
      split at h
      case isTrue hc => exact atom_congr hparted hc hhash h
      case isFalse => cases h

theorem scan_suffix (h : scan cs = .ok (t, rest)) : rest <:+ cs := by
  have hdrop (c : Char) (more : List Char) : more.dropWhile isAtomChar <:+ c :: more :=
    (List.dropWhile_suffix _).trans (List.suffix_cons _ _)
  unfold scan at h
  split at h
  case h_8 body =>
    cases hbody : stringBody [] body with
    | error f =>
      rw [hbody] at h
      cases h
    | ok r =>
      rw [hbody] at h
      cases h
      exact (stringBody_suffix hbody).trans (List.suffix_cons _ _)
  case h_11 first more =>
    obtain ⟨d, -, -, rfl⟩ := atomAt_ok h
    exact ((hdrop first more).trans (List.suffix_cons _ _)).trans (List.suffix_cons _ _)
  case h_12 more _ _ _ =>
    obtain ⟨d, -, -, rfl⟩ := atomAt_ok h
    exact hdrop '#' more
  case h_13 =>
    split at h
    · obtain ⟨d, -, -, rfl⟩ := atomAt_ok h
      exact List.dropWhile_suffix _
    · cases h
  case h_6 | h_9 | h_10 =>
    cases h
    exact (List.suffix_cons _ _).trans (List.suffix_cons _ _)
  all_goals
    cases h
    try exact List.suffix_cons _ _

theorem scan_append (hx : isSpace x) (h : scan cs = .ok (t, rest)) (b : List Char) :
    scan (cs ++ x :: b) = .ok (t, rest ++ x :: b) := by
  obtain ⟨u, rfl⟩ := scan_suffix h
  rw [List.append_assoc]
  exact scan_congr h (parted_append hx rest b)

/-! ### Atmosphere -/

theorem skipAtmosphere_of_scan (h : scan cs = .ok (t, rest)) : skipAtmosphere cs = cs := by
  cases cs with
  | nil => cases h
  | cons c cs =>
    refine skipAtmosphere_cons ?_ ?_ ?_
    · by_contra hspace
      simp only [isSpace, Bool.not_eq_false, Bool.or_eq_true, beq_iff_eq] at hspace
      rcases hspace with ((rfl | rfl) | rfl) | rfl <;> cases h
    · rintro rfl
      cases h
    · rintro rfl hblock
      obtain ⟨cs, rfl⟩ := List.head?_eq_some_iff.mp hblock
      have hbar : isAtomChar '|' = true := by decide
      simp [scan, hbar, hashAtomOf, atomAt] at h

theorem afterLine?_append (h : afterLine? cs = some rest)
    (hb : rest = [] → afterLine? b = some b) : afterLine? (cs ++ b) = some (rest ++ b) := by
  fun_induction afterLine? cs with
  | case1 =>
    cases h
    exact hb rfl
  | case2 cs =>
    cases h
    rfl
  | case3 cs => cases h
  | case4 cs =>
    cases h
    rfl
  | case5 c cs hcrlf hreturn hline ih =>
    rw [List.cons_append, afterLine?]
    · exact ih h
    · exact fun more hc _ => hreturn hc
    · exact hreturn
    · exact hline

theorem afterBlock?_append (h : afterBlock? cs = some rest) (b : List Char) :
    afterBlock? (cs ++ b) = some (rest ++ b) := by
  fun_induction afterBlock? cs with
  | case1 => cases h
  | case2 cs =>
    cases h
    rfl
  | case3 c cs hclose ih =>
    rw [List.cons_append, afterBlock?]
    · exact ih h
    · rintro more rfl hmore
      cases cs with
      | nil => cases h
      | cons x cs => exact hclose cs rfl (by rw [(List.cons.inj hmore).1])

theorem skipAtmosphere_line (h : afterLine? cs = some rest) :
    skipAtmosphere (';' :: cs) = skipAtmosphere rest := by
  rw [skipAtmosphere]
  split
  all_goals
    rename_i hline
    cases h.symm.trans hline
  rfl

theorem skipAtmosphere_block (h : afterBlock? cs = some rest) :
    skipAtmosphere ('#' :: '|' :: cs) = skipAtmosphere rest := by
  rw [skipAtmosphere]
  split
  all_goals
    rename_i hblock
    cases h.symm.trans hblock
  rfl

theorem skipAtmosphere_space (h : isSpace c) : skipAtmosphere (c :: cs) = skipAtmosphere cs := by
  rw [skipAtmosphere]
  · rw [if_pos h]
  · rintro rfl
    cases h
  · rintro more rfl
    cases h

theorem skipAtmosphere_nil : skipAtmosphere [] = [] := by rw [skipAtmosphere]

/-- What is skipped of a text is skipped when more follows, unless a line comment would go on. -/
theorem skipAtmosphere_append (hb : skipAtmosphere cs = [] → afterLine? b = some b) :
    skipAtmosphere (cs ++ b) = skipAtmosphere (skipAtmosphere cs ++ b) := by
  fun_induction skipAtmosphere cs with
  | case1 => rfl
  | case2 rest rest' hline ih =>
    have hopen : rest' = [] → afterLine? b = some b := fun hrest =>
      hb (by rw [hrest, skipAtmosphere_nil])
    rw [List.cons_append, skipAtmosphere_line (afterLine?_append hline hopen)]
    exact ih hb
  | case3 rest hline => rfl
  | case4 rest rest' hblock ih =>
    rw [List.cons_append, List.cons_append, skipAtmosphere_block (afterBlock?_append hblock _)]
    exact ih hb
  | case5 rest hblock => rfl
  | case6 c rest hline hblock hspace ih =>
    rw [List.cons_append, skipAtmosphere_space hspace]
    exact ih hb
  | case7 c rest hline hblock hspace => rfl

theorem skipAtmosphere_append_nil (h : skipAtmosphere cs = []) (b : List Char) :
    skipAtmosphere (cs ++ '\n' :: b) = skipAtmosphere b := by
  rw [skipAtmosphere_append fun _ => rfl, h, List.nil_append, skipAtmosphere_space rfl]

theorem skipAtmosphere_append_scan (hx : isSpace x) (h : scan (skipAtmosphere cs) = .ok (t, rest))
    (b : List Char) : skipAtmosphere (cs ++ x :: b) = skipAtmosphere cs ++ x :: b := by
  rw [skipAtmosphere_append, skipAtmosphere_of_scan (scan_append hx h b)]
  intro hskip
  rw [hskip] at h
  cases h

theorem skipAtmosphere_append_mark (h : skipAtmosphere cs = c :: rest)
    (hc : c = ')' ∨ c = ']' ∨ c = '.') (b : List Char) :
    skipAtmosphere (cs ++ b) = c :: (rest ++ b) := by
  have hopen : skipAtmosphere cs = [] → afterLine? b = some b :=
    fun hskip => nomatch hskip.symm.trans h
  rw [skipAtmosphere_append hopen, h, List.cons_append]
  rcases hc with rfl | rfl | rfl
  all_goals exact skipAtmosphere_cons rfl (by decide) nofun

theorem isLoneDot_append (hx : isSpace x) (c : Char) (cs b : List Char) :
    isLoneDot c (cs ++ x :: b) = isLoneDot c cs := by
  cases cs with
  | nil => simp [isLoneDot, isAtomChar_of_isSpace hx]
  | cons y cs => rfl

theorem eq_of_isLoneDot (h : isLoneDot c cs) : c = '.' :=
  beq_iff_eq.mp (Bool.and_eq_true_iff.mp h).1

theorem atomAt_ne_list {start rest rest' : List Char} {result : Except FaultKind Datum} :
    atomAt start result rest ≠ .ok (.list close, rest') := by
  cases result <;> exact nofun

theorem close_of_scan (h : scan cs = .ok (.list close, rest)) : close = ')' ∨ close = ']' := by
  unfold scan at h
  split at h
  case h_2 =>
    cases h
    exact .inl rfl
  case h_3 =>
    cases h
    exact .inr rfl
  case h_8 body =>
    cases hbody : stringBody [] body with
    | error f =>
      rw [hbody] at h
      cases h
    | ok r =>
      rw [hbody] at h
      cases h
  case h_11 => exact absurd h atomAt_ne_list
  case h_12 => exact absurd h atomAt_ne_list
  case h_13 =>
    split at h
    · exact absurd h atomAt_ne_list
    · cases h
  all_goals cases h

/-! ### Data -/

theorem Reads.skip_append (hx : isSpace x) (h : Reads depth (skipAtmosphere cs) d rest)
    (happend : Reads depth (skipAtmosphere cs ++ x :: b) d rest') :
    Reads depth (skipAtmosphere (cs ++ x :: b)) d rest' := by
  obtain ⟨t, more, hscan⟩ := h.scan
  rwa [skipAtmosphere_append_scan hx hscan b]

mutual

theorem Reads.append {depth : Nat} {cs rest : List Char} {d : Datum} (hx : isSpace x)
    (b : List Char) : Reads depth cs d rest → Reads depth (cs ++ x :: b) d (rest ++ x :: b)
  | .constant hdepth hscan => .constant hdepth (scan_append hx hscan b)
  | .list hdepth hscan hitems =>
    .list hdepth (scan_append hx hscan b) (hitems.append hx (close_of_scan hscan) b)
  | .vector hdepth hscan hitems =>
    .vector hdepth (scan_append hx hscan b) (hitems.append hx (.inl rfl) b)
  | .abbreviation hdepth hscan hread =>
    .abbreviation hdepth (scan_append hx hscan b) (hread.skip_append hx (hread.append hx b))
  | .comment hdepth hscan hdropped hread =>
    .comment hdepth (scan_append hx hscan b) (hdropped.skip_append hx (hdropped.append hx b))
      (hread.skip_append hx (hread.append hx b))

theorem ReadsItems.append {close : Char} {depth : Nat} {seen items : List Datum}
    {cs rest : List Char} {tail : Datum} (hx : isSpace x) (hclose : close = ')' ∨ close = ']')
    (b : List Char) : ReadsItems close depth seen cs items tail rest →
      ReadsItems close depth seen (cs ++ x :: b) items tail (rest ++ x :: b)
  | .close hskip => .close (skipAtmosphere_append_mark hskip (hclose.imp_right .inl) _)
  | .dot hskip hne hbracket hdot hseen htail hend =>
    .dot (skipAtmosphere_append_mark hskip (.inr (.inr (eq_of_isLoneDot hdot))) _) hne hbracket
      (by rwa [isLoneDot_append hx]) hseen (htail.skip_append hx (htail.append hx b))
      (skipAtmosphere_append_mark hend (hclose.imp_right .inl) _)
  | .item hskip hne hbracket hdot hread hmore => by
    obtain ⟨t, more, hscan⟩ := hread.scan
    have hskipped := skipAtmosphere_append_scan hx (hskip ▸ hscan) b
    rw [hskip, List.cons_append] at hskipped
    exact .item hskipped hne hbracket (by rwa [isLoneDot_append hx]) (hread.append hx b)
      (hmore.append hx hclose b)

end

end HygienicScheme.Reader
