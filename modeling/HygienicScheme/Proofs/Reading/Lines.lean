import HygienicScheme.Proofs.Reading.Programs

/-!
# Whole lines of a text

What is skipped or scanned of a text is compared with what is skipped or scanned of its first
lines. No token reaches over a line feed but a string, which then lacks its end. A block comment
does too: without what closes it, its mark is left unread, and `insideComment` tells so.
-/
namespace HygienicScheme.Reader

variable {p q cs rest v : List Char} {t : Token} {d : Datum} {depth : Nat} {close c : Char}
  {seen items : List Datum} {f : Fault}

def Lines (cs : List Char) : Prop := ∀ c ∈ cs.getLast?, c = '\n'

theorem Lines.of_append {a : List Char} (h : Lines (a ++ cs)) : Lines cs := by
  intro c hc
  refine h c ?_
  rw [List.getLast?_append, hc]
  rfl

theorem Lines.suffix {a : List Char} (h : Lines cs) (ha : a <:+ cs) : Lines a := by
  obtain ⟨b, rfl⟩ := ha
  exact h.of_append

theorem Lines.tail {c : Char} (h : Lines (c :: cs)) : Lines cs := h.of_append (a := [c])

theorem Lines.ne_nil (h : Lines (c :: cs)) (hc : c ≠ '\n') : cs ≠ [] := by
  rintro rfl
  exact hc (h c rfl)

theorem Lines.exists_append (h : Lines cs) (hne : cs ≠ []) : ∃ a, cs = a ++ ['\n'] := by
  refine ⟨cs.dropLast, ?_⟩
  rw [← h (cs.getLast hne) (List.getLast?_eq_some_getLast hne), List.dropLast_append_getLast]

theorem Lines.takeWhile_append (h : Lines cs) (hne : cs ≠ []) (q : List Char) :
    (cs ++ q).takeWhile isAtomChar = cs.takeWhile isAtomChar := by
  obtain ⟨a, rfl⟩ := h.exists_append hne
  rw [List.append_assoc, List.singleton_append, takeWhile_append_boundary (boundary_line q),
    takeWhile_append_boundary (boundary_line [])]

theorem Lines.dropWhile_append (h : Lines cs) (hne : cs ≠ []) (q : List Char) :
    (cs ++ q).dropWhile isAtomChar = cs.dropWhile isAtomChar ++ q := by
  obtain ⟨a, rfl⟩ := h.exists_append hne
  rw [List.append_assoc, List.singleton_append, dropWhile_append_boundary (boundary_line q),
    dropWhile_append_boundary (boundary_line []), List.append_assoc, List.singleton_append]

theorem Lines.dropWhile (h : Lines cs) : Lines (cs.dropWhile isAtomChar) :=
  h.suffix (List.dropWhile_suffix isAtomChar)

/-! ### Atmosphere -/

theorem afterLine?_suffix (h : afterLine? cs = some rest) : rest <:+ cs := by
  fun_induction afterLine? cs with
  | case1 | case2 | case4 =>
    cases h
    exact List.suffix_rfl
  | case3 => cases h
  | case5 c cs _ _ _ ih => exact (ih h).trans (List.suffix_cons c cs)

theorem afterBlock?_suffix (h : afterBlock? cs = some rest) : rest <:+ cs := by
  fun_induction afterBlock? cs with
  | case1 => cases h
  | case2 cs =>
    cases h
    exact ⟨['|', '#'], rfl⟩
  | case3 c cs _ ih => exact (ih h).trans (List.suffix_cons c cs)

theorem Lines.afterLine?_append (h : Lines cs) (hne : cs ≠ []) (q : List Char) :
    afterLine? (cs ++ q) = (afterLine? cs).map (· ++ q) := by
  fun_induction afterLine? cs with
  | case1 => exact absurd rfl hne
  | case2 cs => rfl
  | case3 cs hcs =>
    cases cs with
    | nil => exact absurd (h '\r' rfl) (by decide)
    | cons x cs =>
      have hx : x ≠ '\n' := fun hx => hcs cs (hx ▸ rfl)
      rw [List.cons_append, List.cons_append, afterLine?]
      · rfl
      · exact fun more hmore => hx (List.cons.inj hmore).1
  | case4 cs => rfl
  | case5 c cs hcrlf hreturn hline ih =>
    rw [List.cons_append, afterLine?]
    · exact ih h.tail (h.ne_nil hline)
    · exact fun more hc _ => hreturn hc
    · exact hreturn
    · exact hline

theorem skipAtmosphere_line_none (h : afterLine? cs = none) :
    skipAtmosphere (';' :: cs) = ';' :: cs := by
  rw [skipAtmosphere]
  split
  · rename_i hline
    cases h.symm.trans hline
  · rfl

theorem skipAtmosphere_block_none (h : afterBlock? cs = none) :
    skipAtmosphere ('#' :: '|' :: cs) = '#' :: '|' :: cs := by
  rw [skipAtmosphere]
  split
  · rename_i hblock
    cases h.symm.trans hblock
  · rfl

theorem skipAtmosphere_lines (h : Lines cs) (q : List Char) :
    skipAtmosphere (cs ++ q) = skipAtmosphere (skipAtmosphere cs ++ q) ∧
      Lines (skipAtmosphere cs) := by
  fun_induction skipAtmosphere cs with
  | case1 => exact ⟨rfl, h⟩
  | case2 rest rest' hline ih =>
    have hne := h.ne_nil (by decide)
    have happend := h.tail.afterLine?_append hne q
    rw [hline] at happend
    rw [List.cons_append, skipAtmosphere_line happend]
    exact ih (h.tail.suffix (afterLine?_suffix hline))
  | case3 rest hline => exact ⟨rfl, h⟩
  | case4 rest rest' hblock ih =>
    rw [List.cons_append, List.cons_append, skipAtmosphere_block (afterBlock?_append hblock q)]
    exact ih (h.tail.tail.suffix (afterBlock?_suffix hblock))
  | case5 rest hblock => exact ⟨rfl, h⟩
  | case6 c rest hline hblock hspace ih =>
    rw [List.cons_append, skipAtmosphere_space hspace]
    exact ih h.tail
  | case7 c rest hline hblock hspace => exact ⟨rfl, h⟩

inductive Bare : List Char → Prop
  | nil : Bare []
  | line {cs : List Char} (h : afterLine? cs = none) : Bare (';' :: cs)
  | block {cs : List Char} (h : afterBlock? cs = none) : Bare ('#' :: '|' :: cs)
  | other {c : Char} {cs : List Char} (hspace : isSpace c = false) (hline : c ≠ ';')
      (hblock : c = '#' → cs.head? ≠ some '|') : Bare (c :: cs)

theorem bare_skipAtmosphere (cs : List Char) : Bare (skipAtmosphere cs) := by
  fun_induction skipAtmosphere cs with
  | case1 => exact .nil
  | case2 rest rest' hline ih => exact ih
  | case3 rest hline => exact .line hline
  | case4 rest rest' hblock ih => exact ih
  | case5 rest hblock => exact .block hblock
  | case6 c rest hline hblock hspace ih => exact ih
  | case7 c rest hline hblock hspace =>
    refine .other (by simpa using hspace) (fun hc => hline hc) ?_
    rintro hc hhead
    obtain ⟨more, rfl⟩ := List.head?_eq_some_iff.mp hhead
    exact hblock more hc rfl

theorem Bare.skipAtmosphere (h : Bare cs) : skipAtmosphere cs = cs := by
  cases h with
  | nil => exact skipAtmosphere_nil
  | line h => exact skipAtmosphere_line_none h
  | block h => exact skipAtmosphere_block_none h
  | other hspace hline hblock => exact skipAtmosphere_cons hspace hline hblock

/-- Where the first lines stand behind their atmosphere, the whole text stands behind it too, unless
the lines are over or break off inside a block comment. -/
theorem Bare.append (h : Bare (c :: cs)) (hlines : Lines (c :: cs))
    (hopen : ∀ more, c :: cs ≠ '#' :: '|' :: more) (q : List Char) :
    Reader.skipAtmosphere (c :: (cs ++ q)) = c :: (cs ++ q) := by
  cases h with
  | line h =>
    refine skipAtmosphere_line_none ?_
    rw [hlines.tail.afterLine?_append (hlines.ne_nil (by decide)), h]
    rfl
  | block h => exact absurd rfl (hopen _)
  | other hspace hline hblock =>
    refine skipAtmosphere_cons hspace hline fun hc hhead => ?_
    have hne : cs ≠ [] := hlines.ne_nil (hc ▸ by decide)
    obtain ⟨x, more, rfl⟩ := List.exists_cons_of_ne_nil hne
    exact hblock hc hhead

/-! ### Whether a text breaks off inside a block comment -/

def isMark (c : Char) (rest : List Char) : Bool := c == ')' || c == ']' || isLoneDot c rest

theorem length_lt_of_skipped (h : skipAtmosphere cs = c :: rest) : rest.length < cs.length := by
  have hs := skipAtmosphere_length cs
  rw [h, List.length_cons] at hs
  omega

theorem length_lt_of_scanned {rest' : List Char} (h : skipAtmosphere cs = c :: rest)
    (ht : scan (c :: rest) = .ok (t, rest')) : rest'.length < cs.length := by
  have hskipped := length_lt_of_skipped h
  have hscanned := scan_progress ht
  rw [List.length_cons] at hscanned
  omega

/-- Reads off the tokens, brackets and points of a text, and tells whether what is left is a block
comment that nothing closes. -/
def insideComment (cs : List Char) : Bool :=
  match h : skipAtmosphere cs with
  | [] => false
  | '#' :: '|' :: _ => true
  | c :: rest =>
    have := length_lt_of_skipped h
    if isMark c rest then insideComment rest
    else match ht : scan (c :: rest) with
      | .ok (_, rest') =>
        have := length_lt_of_scanned h ht
        insideComment rest'
      | .error _ => false
termination_by cs.length

theorem insideComment_eq (cs : List Char) : insideComment cs =
    match skipAtmosphere cs with
    | [] => false
    | '#' :: '|' :: _ => true
    | c :: rest =>
      if isMark c rest then insideComment rest
      else match scan (c :: rest) with
        | .ok (_, rest') => insideComment rest'
        | .error _ => false := by
  rw [insideComment]
  split
  case h_1 hskip => rw [hskip]
  case h_2 hskip => simp only [hskip]
  case h_3 c rest hopen hskip =>
    conv_rhs => rw [hskip]
    dsimp only
    rw [eq_comm]
    split
    · rename_i heq
      cases heq
    · rename_i heq
      cases heq
      exact absurd rfl (hopen _ rfl)
    · rename_i heq
      cases heq
      cases scan (c :: rest) <;> rfl

theorem insideComment_skipAtmosphere (cs : List Char) :
    insideComment (skipAtmosphere cs) = insideComment cs := by
  rw [insideComment_eq (skipAtmosphere cs), insideComment_eq cs,
    (bare_skipAtmosphere cs).skipAtmosphere]

theorem insideComment_over (h : skipAtmosphere cs = []) : insideComment cs = false := by
  rw [insideComment_eq, h]

theorem insideComment_open (h : skipAtmosphere cs = '#' :: '|' :: rest) :
    insideComment cs = true := by
  simp only [insideComment_eq cs, h]

theorem insideComment_mark (h : skipAtmosphere cs = c :: rest) (hc : isMark c rest) :
    insideComment cs = insideComment rest := by
  rw [insideComment_eq, h]
  split
  · rename_i heq
    cases heq
  · rename_i heq
    cases heq
    cases hc
  · rename_i heq
    cases heq
    rw [if_pos hc]

theorem scan_open (v : List Char) :
    scan ('#' :: '|' :: v) = .error ⟨.badToken, '#' :: '|' :: v⟩ := by
  have hbar : isAtomChar '|' = true := by decide
  simp [scan, hbar, hashAtomOf, atomAt]

theorem scan_lone_dot (h : isLoneDot c rest) :
    scan (c :: rest) = .error ⟨.badToken, c :: rest⟩ := by
  obtain rfl := eq_of_isLoneDot h
  have hdot : isAtomChar '.' = true := by decide
  have hnext : rest.takeWhile isAtomChar = [] := by
    cases rest with
    | nil => rfl
    | cons x more =>
      have hx : isAtomChar x = false := by simpa [isLoneDot] using h
      simp [hx]
  rw [scan_atom hdot (by decide), List.takeWhile_cons, if_pos hdot, hnext]
  rfl

theorem not_isMark_of_scan (h : scan (c :: rest) = .ok (t, cs)) : isMark c rest = false := by
  by_contra hc
  rw [Bool.not_eq_false, isMark, Bool.or_eq_true, Bool.or_eq_true, beq_iff_eq, beq_iff_eq] at hc
  rcases hc with (rfl | rfl) | hdot
  · cases h
  · cases h
  · cases (scan_lone_dot hdot).symm.trans h

theorem insideComment_scan (h : scan (skipAtmosphere cs) = .ok (t, rest)) :
    insideComment cs = insideComment rest := by
  rw [insideComment_eq]
  split
  · rename_i heq
    rw [heq] at h
    cases h
  · rename_i heq
    rw [heq] at h
    cases (scan_open _).symm.trans h
  · rename_i heq
    rw [heq] at h
    rw [not_isMark_of_scan h, if_neg Bool.false_ne_true, h]

theorem insideComment_string {text : List Char} (h : scan ('\x22' :: text) = .error f) :
    insideComment ('\x22' :: text) = false := by
  have hskip : skipAtmosphere ('\x22' :: text) = '\x22' :: text :=
    skipAtmosphere_cons rfl (by decide) nofun
  have hmark : isMark '\x22' text = false := rfl
  rw [insideComment_eq, hskip]
  split
  · rename_i heq
    cases heq
  · rename_i heq
    cases heq
  · rename_i heq
    cases heq
    rw [hmark, if_neg Bool.false_ne_true, h]

/-! ### Tokens -/

theorem stringBody_lines {text : List Char} {r : List Char × List Char} (hp : Lines p)
    (h : stringBody text (p ++ q) = .ok r) :
    (∃ rest, r.2 = rest ++ q ∧ Lines rest ∧ stringBody text p = .ok (r.1, rest)) ∨
      stringBody text p = .error ⟨.endOfInput, []⟩ := by
  fun_induction stringBody text p with
  | case1 text rest =>
    cases h
    exact .inl ⟨rest, rfl, hp.tail, rfl⟩
  | case2 text cs ih | case3 text cs ih | case4 text cs ih | case5 text cs ih | case6 text cs ih =>
    exact ih hp.tail.tail h
  | case7 text => exact .inr rfl
  | case8 text cs hn ht hr hslash hquote hnil =>
    obtain ⟨x, more, rfl⟩ := List.exists_cons_of_ne_nil (fun hcs => hnil hcs)
    rw [List.cons_append, List.cons_append, stringBody] at h
    · cases h
    · exact ne_cons_append hn
    · exact ne_cons_append ht
    · exact ne_cons_append hr
    · exact ne_cons_append hslash
    · exact ne_cons_append hquote
    · simp
  | case9 text c cs hquote hslash ih =>
    rw [List.cons_append, stringBody] at h
    · exact ih hp.tail h
    · exact hquote
    · exact hslash
  | case10 text => exact .inr rfl

theorem eq_nil_of_characterOf {more : List Char} (h : characterOf '\n' more = .ok d) :
    more = [] := by
  have hname (name : String) (hhead : name.toList.head? ≠ some '\n') :
      String.ofList ('\n' :: more) ≠ name := by
    rintro rfl
    exact hhead (by rw [String.toList_ofList, List.head?_cons])
  unfold characterOf at h
  split_ifs at h with hmore
  · exact List.isEmpty_iff.mp hmore
  · split at h
    case h_8 => cases h
    all_goals
      rename_i heq
      exact absurd heq (hname _ (by decide))

theorem dropWhile_of_takeWhile (h : q.takeWhile isAtomChar = []) : q.dropWhile isAtomChar = q := by
  have happend := List.takeWhile_append_dropWhile (p := isAtomChar) (l := q)
  rwa [h, List.nil_append] at happend

/-- A character is named within the lines, or it is the line feed at their end. -/
theorem scan_character_lines {first : Char} {after : List Char}
    (hp : Lines ('#' :: '\\' :: first :: after))
    (h : scan ('#' :: '\\' :: first :: (after ++ q)) = .ok (t, rest)) :
    ∃ p', rest = p' ++ q ∧ Lines p' ∧ scan ('#' :: '\\' :: first :: after) = .ok (t, p') := by
  obtain ⟨d, hd, rfl, rfl⟩ := atomAt_ok h
  rcases eq_or_ne after [] with rfl | hafter
  · -- The line feed itself is the character; more behind it would make it no name of one.
    obtain rfl : first = '\n' := hp first rfl
    rw [List.nil_append] at hd
    have hmore := eq_nil_of_characterOf hd
    rw [hmore] at hd
    refine ⟨[], dropWhile_of_takeWhile hmore, by simp [Lines], ?_⟩
    simp only [scan, List.takeWhile_nil, List.dropWhile_nil, hd, atomAt]
  · have hlines := hp.tail.tail.tail
    rw [hlines.takeWhile_append hafter] at hd
    refine ⟨_, hlines.dropWhile_append hafter q, hlines.dropWhile, ?_⟩
    simp only [scan, hd, atomAt]

/-- A token is taken from the first lines as from the whole text, or it is a string that lacks its
end. -/
theorem scan_lines (hp : Lines p) (hne : p ≠ []) (h : scan (p ++ q) = .ok (t, rest)) :
    (∃ p', rest = p' ++ q ∧ Lines p' ∧ scan p = .ok (t, p')) ∨
      ∃ text, p = '\x22' :: text ∧ scan p = .error ⟨.endOfInput, []⟩ := by
  obtain ⟨c, cs, rfl⟩ := List.exists_cons_of_ne_nil hne
  rw [List.cons_append] at h
  -- A token that needs more than its first character finds it before the line feed that ends `p`,
  -- so only an open string can run over the seam.
  unfold scan at h
  split at h
  case h_1 heq => cases heq
  case h_2 heq | h_3 heq | h_4 heq | h_5 heq =>
    cases heq
    cases h
    exact .inl ⟨cs, rfl, hp.tail, rfl⟩
  case h_6 heq =>
    obtain ⟨rfl, hcs⟩ := List.cons.inj heq
    obtain ⟨x, more, rfl⟩ := List.exists_cons_of_ne_nil (hp.ne_nil (by decide))
    cases hcs
    cases h
    exact .inl ⟨more, rfl, hp.tail.tail, rfl⟩
  case h_7 hsplicing heq =>
    obtain ⟨rfl, rfl⟩ := List.cons.inj heq
    obtain ⟨x, more, rfl⟩ := List.exists_cons_of_ne_nil (hp.ne_nil (by decide))
    cases h
    refine .inl ⟨x :: more, rfl, hp.tail, ?_⟩
    rw [scan]
    rintro more' hmore
    cases hmore
    exact hsplicing _ rfl
  case h_8 heq =>
    obtain ⟨rfl, rfl⟩ := List.cons.inj heq
    cases hbody : stringBody [] (cs ++ q) with
    | error f =>
      rw [hbody] at h
      cases h
    | ok r =>
      rw [hbody] at h
      cases h
      -- The string is closed within the lines, or it is open at their end.
      rcases stringBody_lines hp.tail hbody with ⟨rest, hrest, hlines, hread⟩ | hread
      · refine .inl ⟨rest, hrest, hlines, ?_⟩
        rw [scan, hread]
        rfl
      · refine .inr ⟨cs, rfl, ?_⟩
        rw [scan, hread]
        rfl
  case h_9 heq | h_10 heq =>
    obtain ⟨rfl, hcs⟩ := List.cons.inj heq
    obtain ⟨x, more, rfl⟩ := List.exists_cons_of_ne_nil (hp.ne_nil (by decide))
    cases hcs
    cases h
    exact .inl ⟨more, rfl, hp.tail.tail, rfl⟩
  case h_11 first after heq =>
    obtain ⟨rfl, hcs⟩ := List.cons.inj heq
    obtain ⟨x, more, rfl⟩ := List.exists_cons_of_ne_nil (hp.ne_nil (by decide))
    rw [List.cons_append] at hcs
    obtain ⟨rfl, hmore⟩ := List.cons.inj hcs
    obtain ⟨y, after', rfl⟩ := List.exists_cons_of_ne_nil (hp.tail.ne_nil (by decide))
    rw [List.cons_append] at hmore
    obtain ⟨rfl, rfl⟩ := List.cons.inj hmore
    exact .inl (scan_character_lines hp h)
  case h_12 after hcomment hvector hcharacter heq =>
    obtain ⟨rfl, rfl⟩ := List.cons.inj heq
    have hcs : cs ≠ [] := hp.ne_nil (by decide)
    obtain ⟨d, hd, rfl, rfl⟩ := atomAt_ok h
    rw [hp.tail.takeWhile_append hcs] at hd
    refine .inl ⟨_, hp.tail.dropWhile_append hcs q, hp.tail.dropWhile, ?_⟩
    rw [scan, hd]
    · rfl
    · rintro more rfl
      exact hcomment _ rfl
    · rintro more rfl
      exact hvector _ rfl
    · rintro first more rfl
      exact hcharacter _ _ rfl
  case h_13 hhash heq =>
    obtain ⟨rfl, rfl⟩ := List.cons.inj heq
    split at h
    case isTrue hc =>
      obtain ⟨d, hd, rfl, rfl⟩ := atomAt_ok h
      rw [← List.cons_append, hp.takeWhile_append hne] at hd
      refine .inl ⟨_, hp.dropWhile_append hne q, hp.dropWhile, ?_⟩
      rw [scan_atom hc hhash, hd]
      rfl
    case isFalse => cases h

theorem skipAtmosphere_suffix (cs : List Char) : skipAtmosphere cs <:+ cs := by
  fun_induction skipAtmosphere cs with
  | case1 | case3 | case5 | case7 => exact List.suffix_rfl
  | case2 rest rest' hline ih =>
    exact (ih.trans (afterLine?_suffix hline)).trans (List.suffix_cons _ _)
  | case4 rest rest' hblock ih =>
    exact ((ih.trans (afterBlock?_suffix hblock)).trans (List.suffix_cons _ _)).trans
      (List.suffix_cons _ _)
  | case6 c rest _ _ _ ih => exact ih.trans (List.suffix_cons _ _)

theorem exists_open_of_insideComment {cs : List Char} (h : insideComment cs) :
    ∃ v, '#' :: '|' :: v <:+ cs ∧ afterBlock? v = none := by
  have hsuffix := skipAtmosphere_suffix cs
  have hbare := bare_skipAtmosphere cs
  rw [insideComment_eq] at h
  split at h
  · cases h
  · rename_i v hskip
    rw [hskip] at hsuffix hbare
    refine ⟨v, hsuffix, ?_⟩
    cases hbare with
    | block hnone => exact hnone
    | other _ _ hblock => exact absurd rfl (hblock rfl)
  · rename_i c rest hopen hskip
    rw [hskip] at hsuffix
    have hshort := hsuffix.length_le
    split_ifs at h with hmark
    · obtain ⟨v, hv, hnone⟩ := exists_open_of_insideComment h
      exact ⟨v, (hv.trans (List.suffix_cons c rest)).trans hsuffix, hnone⟩
    · split at h
      · rename_i t rest' hscan
        have hless := scan_progress hscan
        obtain ⟨v, hv, hnone⟩ := exists_open_of_insideComment h
        exact ⟨v, (hv.trans (scan_suffix hscan)).trans hsuffix, hnone⟩
      · cases h
termination_by cs.length

end HygienicScheme.Reader
