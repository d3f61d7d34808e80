import HygienicScheme.Proofs.Reading.Grammar
import HygienicScheme.Proofs.Reading.Scanning

/-!
# Reading what was printed

A datum is readable when each of its symbols is what the reader makes of the symbol's name. The
written text of a readable datum is read back as that datum, in front of anything that cannot
extend its last atom, as long as the reader has levels left for it. By induction on the datum, a
datum and a tail of a list are treated together, since printing flattens the one into the other.
-/
namespace HygienicScheme

namespace Datum

/-- Data that the reader can make from text. Floats are left out. -/
inductive Readable : Datum → Prop
  | null : Readable null
  | bool (b : Bool) : Readable (bool b)
  | int (n : Int64) : Readable (int n)
  | char (c : Char) : Readable (char c)
  | string (text : String) : Readable (string text)
  | symbol {x : Symbol} (h : Reader.parseDatum x.name = .ok (symbol x)) : Readable (symbol x)
  | pair {car cdr : Datum} (hcar : Readable car) (hcdr : Readable cdr) : Readable (pair car cdr)
  | vector {items : List Datum} (h : ∀ d ∈ items, Readable d) : Readable (vector items)

mutual

/-- The number of lists and vectors around the innermost part. -/
def depth (d : Datum) : Nat :=
  match d with
  | pair car cdr => max (car.depth + 1) cdr.tailDepth
  | vector items => (items.map fun d => d.depth + 1).foldr max 0
  | _ => 0
termination_by (sizeOf d, 0)

def tailDepth (d : Datum) : Nat :=
  match d with
  | null => 0
  | pair car cdr => max (car.depth + 1) cdr.tailDepth
  | d => d.depth + 1
termination_by (sizeOf d, 1)

end

end Datum

namespace Reader

def ReadsTo (depth : Nat) (cs : List Char) (d : Datum) (rest : List Char) : Prop :=
  ∃ hr, readDatum depth cs = .ok (d, ⟨rest, hr⟩)

def ReadsItemsTo (depth : Nat) (seen : List Datum) (cs : List Char) (items : List Datum)
    (tail : Datum) (rest : List Char) : Prop :=
  ∃ hr, readItems ')' depth seen cs = .ok (items, tail, ⟨rest, hr⟩)

structure Begins (cs : List Char) : Prop where
  skip : skipAtmosphere cs = cs
  head : ∃ c rest, cs = c :: rest ∧ (c ≠ ')' ∧ c ≠ ']') ∧ isLoneDot c rest = false

variable {depth : Nat} {cs rest rest' : List Char} {d d' tail : Datum}
  {seen items items' : List Datum}

theorem skipAtmosphere_blank (cs : List Char) : skipAtmosphere (' ' :: cs) = skipAtmosphere cs := by
  rw [skipAtmosphere] <;> simp [isSpace]

theorem skipAtmosphere_cons {c : Char} (hspace : isSpace c = false) (hline : c ≠ ';')
    (hblock : c = '#' → cs.head? ≠ some '|') : skipAtmosphere (c :: cs) = c :: cs := by
  rw [skipAtmosphere]
  · simp [hspace]
  · exact fun hc => hline hc
  · rintro rest hc rfl
    exact hblock hc rfl

theorem ne_of_isAtomChar {c x : Char} (hc : isAtomChar c) (hx : isAtomChar x = false) : c ≠ x := by
  rintro rfl
  rw [hc] at hx
  cases hx

theorem skipAtmosphere_atom {c : Char} (hc : isAtomChar c) (hash : c ≠ '#') :
    skipAtmosphere (c :: cs) = c :: cs := by
  refine skipAtmosphere_cons ?_ (ne_of_isAtomChar hc (by decide)) fun h => absurd h hash
  have hblank : c ≠ ' ' ∧ c ≠ '\t' ∧ c ≠ '\r' ∧ c ≠ '\n' :=
    ⟨ne_of_isAtomChar hc (by decide), ne_of_isAtomChar hc (by decide),
      ne_of_isAtomChar hc (by decide), ne_of_isAtomChar hc (by decide)⟩
  simpa [isSpace, and_assoc] using hblank

theorem begins_atom {c : Char} (hc : isAtomChar c) (hash : c ≠ '#')
    (hdot : isLoneDot c cs = false) : Begins (c :: cs) :=
  ⟨skipAtmosphere_atom hc hash, c, cs, rfl,
    ⟨ne_of_isAtomChar hc (by decide), ne_of_isAtomChar hc (by decide)⟩, hdot⟩

theorem begins_token {token : List Char} (hne : token ≠ []) (hatom : ∀ c ∈ token, isAtomChar c)
    (hash : token.head? ≠ some '#') (hdot : token ≠ ['.']) (rest : List Char) :
    Begins (token ++ rest) := by
  obtain ⟨c, cs, rfl⟩ := List.exists_cons_of_ne_nil hne
  refine begins_atom (hatom c (by simp)) (by simpa using hash) ?_
  cases cs with
  | nil =>
    have hc : c ≠ '.' := fun h => hdot (by rw [h])
    simp [isLoneDot, hc]
  | cons c' cs => simp [isLoneDot, hatom c' (by simp)]

theorem begins_mark {c : Char} (h : c = '(' ∨ c = '"' ∨ c = '#' ∧ cs.head? ≠ some '|') :
    Begins (c :: cs) := by
  rcases h with rfl | rfl | ⟨rfl, hcs⟩
  · exact ⟨skipAtmosphere_cons rfl (by decide) (by simp), _, _, rfl, by decide, rfl⟩
  · exact ⟨skipAtmosphere_cons rfl (by decide) (by simp), _, _, rfl, by decide, rfl⟩
  · exact ⟨skipAtmosphere_cons rfl (by decide) fun _ => hcs, _, _, rfl, by decide, rfl⟩

theorem skipAtmosphere_close (rest : List Char) : skipAtmosphere (')' :: rest) = ')' :: rest :=
  skipAtmosphere_cons rfl (by decide) (by simp)

theorem readsItemsTo_close : ReadsItemsTo depth seen (')' :: rest) seen.reverse .null rest :=
  readItems_close (skipAtmosphere_close rest)

theorem readsItemsTo_item {cs' : List Char} (hskip : skipAtmosphere cs = cs') (hb : Begins cs')
    (hd : ReadsTo depth cs' d rest)
    (hmore : ReadsItemsTo depth (d :: seen) rest items tail rest') :
    ReadsItemsTo depth seen cs items tail rest' := by
  obtain ⟨c, more, rfl, hc, hdot⟩ := hb.head
  obtain ⟨_, hd⟩ := hd
  obtain ⟨_, hmore⟩ := hmore
  exact readItems_item hskip hc.1 hc hdot hd hmore

theorem readsItemsTo_dot (hseen : seen ≠ []) (hb : Begins cs)
    (hd : ReadsTo depth cs d (')' :: rest)) :
    ReadsItemsTo depth seen (' ' :: '.' :: ' ' :: cs) seen.reverse d rest := by
  have hskip : skipAtmosphere (' ' :: '.' :: ' ' :: cs) = '.' :: ' ' :: cs := by
    rw [skipAtmosphere_blank, skipAtmosphere_cons rfl (by decide) (by simp)]
  have htail : skipAtmosphere (' ' :: cs) = cs := by rw [skipAtmosphere_blank, hb.skip]
  obtain ⟨hr, hd⟩ := hd
  have hd' : ∃ hr, readDatum depth (skipAtmosphere (' ' :: cs)) = .ok (d, ⟨')' :: rest, hr⟩) := by
    rw [htail]
    exact ⟨hr, hd⟩
  have hclose' : ∃ hr, closeTail ')' (skipAtmosphere (')' :: rest)) = .ok ⟨rest, hr⟩ := by
    rw [skipAtmosphere_close]
    exact ⟨_, rfl⟩
  obtain ⟨_, hd'⟩ := hd'
  obtain ⟨_, hclose'⟩ := hclose'
  exact readItems_dot hskip (by decide) (by decide) rfl hseen hd' hclose'

theorem readsTo_constant (hdepth : depth < maxDepth) (h : scan cs = .ok (.constant d, rest)) :
    ReadsTo depth cs d rest :=
  ⟨_, readDatum_constant hdepth h⟩

theorem readsTo_list (hdepth : depth < maxDepth)
    (h : ReadsItemsTo (depth + 1) [] cs items tail rest) :
    ReadsTo depth ('(' :: cs) (.listWithTail items tail) rest := by
  obtain ⟨_, h⟩ := h
  exact readDatum_list hdepth rfl h

theorem readsTo_vector (hdepth : depth < maxDepth)
    (h : ReadsItemsTo (depth + 1) [] cs items .null rest) :
    ReadsTo depth ('#' :: '(' :: cs) (.vector items) rest := by
  obtain ⟨_, h⟩ := h
  exact readDatum_vector hdepth rfl h

structure ReadsAs (d d' : Datum) : Prop where
  begins : ∀ rest, Begins (d.written ++ rest)
  datum : ∀ depth rest, Boundary rest → depth + d.depth < maxDepth →
    ReadsTo depth (d.written ++ rest) d' rest
  tail : ∀ depth seen rest, seen ≠ [] → depth + d.tailDepth ≤ maxDepth →
    ∃ more last, Datum.listWithTail more last = d' ∧
      ReadsItemsTo depth seen (d.writtenTail ++ ')' :: rest) (seen.reverse ++ more) last rest

abbrev ReadsBack (d : Datum) : Prop := ReadsAs d d

theorem boundary_writtenTail (d : Datum) (rest : List Char) :
    Boundary (d.writtenTail ++ ')' :: rest) := by
  cases d with
  | null => simpa [Datum.writtenTail] using boundary_close rest
  | _ => simp [Datum.writtenTail, boundary_blank]

theorem boundary_writtenItems (items : List Datum) (rest : List Char) :
    Boundary (Datum.writtenItems items ++ ')' :: rest) := by
  cases items with
  | nil => simpa [Datum.writtenItems] using boundary_close rest
  | cons d more => simp [Datum.writtenItems, boundary_blank]

theorem readsAs_of_datum (hd : ∀ car cdr, d ≠ .pair car cdr) (hd' : d ≠ .null)
    (hb : ∀ rest, Begins (d.written ++ rest))
    (h : ∀ depth rest, Boundary rest → depth + d.depth < maxDepth →
      ReadsTo depth (d.written ++ rest) d' rest) : ReadsAs d d' where
  begins := hb
  datum := h
  tail depth seen rest hseen hdepth := by
    have htext : d.writtenTail = ' ' :: '.' :: ' ' :: d.written := by
      cases d <;> simp_all [Datum.writtenTail]
    have hlevel : d.tailDepth = d.depth + 1 := by
      cases d <;> simp_all [Datum.tailDepth]
    refine ⟨[], d', rfl, ?_⟩
    rw [htext, List.append_nil]
    exact readsItemsTo_dot hseen (hb _) (h depth _ (boundary_close rest) (by omega))

theorem readsAs_atom (hd : ∀ car cdr, d ≠ .pair car cdr) (hd' : d ≠ .null)
    (hd'' : ∀ items, d ≠ .vector items) (hb : ∀ rest, Begins (d.atomText ++ rest))
    (h : ∀ rest, Boundary rest → scan (d.atomText ++ rest) = .ok (.constant d', rest)) :
    ReadsAs d d' := by
  have htext : d.written = d.atomText := by cases d <;> simp_all [Datum.written]
  refine readsAs_of_datum hd hd' ?_ ?_
  · rw [htext]
    exact hb
  · intro depth rest hrest hdepth
    rw [htext]
    exact readsTo_constant (by omega) (h rest hrest)

theorem readsBack_null : ReadsBack .null where
  begins rest := by
    rw [Datum.written]
    · exact begins_mark (.inl rfl)
    · simp
    · simp
  datum depth rest _ hdepth := by
    have hlist : ReadsTo depth ('(' :: ')' :: rest) (.listWithTail [] .null) rest :=
      readsTo_list (by omega) readsItemsTo_close
    simpa [Datum.written, Datum.atomText, Datum.listWithTail] using hlist
  tail depth seen rest _ _ := by
    refine ⟨[], .null, rfl, ?_⟩
    rw [Datum.writtenTail, List.append_nil]
    exact readsItemsTo_close

/-- An item of a list and all that follows, whether or not a blank stands in front. -/
theorem readsItemsTo_pair {car cdr car' cdr' : Datum} (hcar : ReadsAs car car')
    (hcdr : ReadsAs cdr cdr') {cs : List Char}
    (hskip : skipAtmosphere cs = skipAtmosphere (car.written ++ (cdr.writtenTail ++ ')' :: rest)))
    (hdepth : depth + max (car.depth + 1) cdr.tailDepth ≤ maxDepth) :
    ∃ more last, Datum.listWithTail more last = .pair car' cdr' ∧
      ReadsItemsTo depth seen cs (seen.reverse ++ more) last rest := by
  obtain ⟨more, last, hlist, hmore⟩ := hcdr.tail depth (car' :: seen) rest (by simp) (by omega)
  refine ⟨car' :: more, last, by rw [← hlist]; rfl, ?_⟩
  rw [List.reverse_cons, List.append_assoc] at hmore
  have hbegins := hcar.begins (cdr.writtenTail ++ ')' :: rest)
  rw [hbegins.skip] at hskip
  exact readsItemsTo_item hskip hbegins
    (hcar.datum depth _ (boundary_writtenTail cdr rest) (by omega)) hmore

theorem readsAs_pair {car cdr car' cdr' : Datum} (hcar : ReadsAs car car')
    (hcdr : ReadsAs cdr cdr') : ReadsAs (.pair car cdr) (.pair car' cdr') where
  begins rest := by
    rw [Datum.written]
    exact begins_mark (.inl rfl)
  datum depth rest _ hdepth := by
    rw [Datum.depth] at hdepth
    have hlevel : depth + 1 + max (car.depth + 1) cdr.tailDepth ≤ maxDepth := by omega
    have hskip : skipAtmosphere (car.written ++ (cdr.writtenTail ++ ')' :: rest)) = _ := rfl
    obtain ⟨more, last, hlist, hitems⟩ := readsItemsTo_pair hcar hcdr hskip hlevel
    have h := readsTo_list (by omega) hitems
    simpa [Datum.written, hlist] using h
  tail depth seen rest _ hdepth := by
    rw [Datum.tailDepth] at hdepth
    refine readsItemsTo_pair hcar hcdr ?_ hdepth
    rw [Datum.writtenTail, List.cons_append, List.append_assoc, skipAtmosphere_blank]

theorem depth_lt_of_mem {items : List Datum} (h : d ∈ items) :
    d.depth < (Datum.vector items).depth := by
  rw [Datum.depth]
  induction items with
  | nil => cases h
  | cons e more ih =>
    rw [List.map_cons, List.foldr_cons]
    rcases List.mem_cons.mp h with rfl | h
    · omega
    · have := ih h
      omega

theorem readsItemsTo_items (h : List.Forall₂ ReadsAs items items')
    (hskip : skipAtmosphere cs = skipAtmosphere (Datum.writtenItems items ++ ')' :: rest))
    (hdepth : ∀ d ∈ items, depth + d.depth < maxDepth) :
    ReadsItemsTo depth seen cs (seen.reverse ++ items') .null rest := by
  induction h generalizing seen cs with
  | nil =>
    rw [List.append_nil]
    rw [Datum.writtenItems] at hskip
    exact readItems_close (hskip.trans (skipAtmosphere_close rest))
  | @cons d d' more more' hd _ ih =>
    have hmore : ReadsItemsTo depth (d' :: seen) (Datum.writtenItems more ++ ')' :: rest)
        ((d' :: seen).reverse ++ more') .null rest :=
      ih rfl (fun e he => hdepth e (by simp [he]))
    rw [List.reverse_cons, List.append_assoc] at hmore
    have hbegins := hd.begins (Datum.writtenItems more ++ ')' :: rest)
    rw [Datum.writtenItems, List.cons_append, List.append_assoc, skipAtmosphere_blank,
      hbegins.skip] at hskip
    exact readsItemsTo_item hskip hbegins
      (hd.datum depth _ (boundary_writtenItems more rest) (hdepth d (by simp))) hmore

theorem readsAs_vector (h : List.Forall₂ ReadsAs items items') :
    ReadsAs (.vector items) (.vector items') := by
  refine readsAs_of_datum (by simp) (by simp) ?_ ?_
  · intro rest
    rw [Datum.written]
    exact begins_mark (.inr (.inr ⟨rfl, by simp⟩))
  · intro depth rest _ hdepth
    have hlevel : ∀ d ∈ items, depth + 1 + d.depth < maxDepth := by
      intro d hd
      have := depth_lt_of_mem hd
      omega
    have hfirst : skipAtmosphere ((Datum.writtenItems items).drop 1 ++ ')' :: rest) =
        skipAtmosphere (Datum.writtenItems items ++ ')' :: rest) := by
      cases items with
      | nil => rw [Datum.writtenItems, List.drop_nil]
      | cons d more =>
        rw [Datum.writtenItems, List.drop_one, List.tail_cons, List.cons_append,
          skipAtmosphere_blank]
    have hitems : ReadsItemsTo (depth + 1) [] _ ([].reverse ++ items') .null rest :=
      readsItemsTo_items h hfirst hlevel
    have hvector := readsTo_vector (by omega) hitems
    simpa [Datum.written] using hvector

theorem begins_numeral (n : Int) (rest : List Char) : Begins (numeral n ++ rest) := by
  unfold numeral
  split_ifs
  · exact begins_atom (by decide) (by decide) rfl
  · obtain ⟨c, cs, hcs⟩ := List.exists_cons_of_ne_nil
      (Nat.toDigits_ne_nil (n := n.natAbs) (b := 10))
    have hc : c.isDigit := List.all_eq_true.mp (all_isDigit_toDigits n.natAbs) c (by simp [hcs])
    have hne : ∀ x : Char, x.isDigit = false → c ≠ x := by
      rintro x hx rfl
      rw [hc] at hx
      cases hx
    rw [hcs]
    exact begins_atom (isAtomChar_of_isDigit hc) (hne _ (by decide))
      (by simp [isLoneDot, hne '.' (by decide)])

theorem SymbolToken.begins {x : Symbol} (h : SymbolToken x) (rest : List Char) :
    Begins (x.name.toList ++ rest) := by
  refine begins_token h.ne_nil h.atomChar h.head_ne ?_ rest
  -- A point alone is the name of no symbol.
  intro hdot
  have hname := h.atomOf_eq
  rw [hdot] at hname
  simp [atomOf, looksNumeric, isSymbolName, Decimal.sign] at hname

theorem SymbolToken.readsBack {x : Symbol} (h : SymbolToken x) : ReadsBack (.symbol x) :=
  readsAs_atom (by simp) (by simp) (by simp) (fun rest => h.begins rest)
    fun rest hrest => h.scan_eq hrest

theorem readsBack_of_readable (h : d.Readable) : ReadsBack d := by
  induction h with
  | null => exact readsBack_null
  | pair _ _ hcar hcdr => exact readsAs_pair hcar hcdr
  | vector _ ih => exact readsAs_vector (List.forall₂_same.mpr ih)
  | bool b =>
    refine readsAs_atom (by simp) (by simp) (by simp) (fun rest => ?_) fun rest => scan_bool b
    exact begins_mark (.inr (.inr ⟨rfl, by cases b <;> simp⟩))
  | int n =>
    refine readsAs_atom (by simp) (by simp) (by simp) (fun rest => ?_) fun rest => scan_int n
    rw [Datum.atomText, toList_toString_int]
    exact begins_numeral _ rest
  | char c =>
    refine readsAs_atom (by simp) (by simp) (by simp) (fun rest => ?_) fun rest => scan_char c
    obtain ⟨cs, hcs⟩ : ∃ cs, (Datum.char c).atomText = '#' :: '\\' :: cs := by
      rw [Datum.atomText]
      unfold Store.charText
      rw [if_neg (by decide)]
      split_ifs
      · exact ⟨_, rfl⟩
      · exact ⟨_, rfl⟩
      · exact ⟨_, rfl⟩
      · exact ⟨[c], by simp⟩
    rw [hcs]
    exact begins_mark (.inr (.inr ⟨rfl, by simp⟩))
  | string text =>
    refine readsAs_atom (by simp) (by simp) (by simp) (fun rest => ?_)
      fun rest _ => scan_string text
    have htext : (Datum.string text).atomText ++ rest =
        '"' :: (text.toList.flatMap Store.escape ++ '"' :: rest) := by
      simp [Datum.atomText, Store.stringText]
    rw [htext]
    exact begins_mark (.inr (.inl rfl))
  | symbol hx => exact (symbolToken_of_parseDatum hx).readsBack

theorem ReadsAs.parseDatum_eq {text : String} (hreads : ReadsAs d d')
    (hdepth : d.depth < maxDepth) (htext : text.toList = d.written) : parseDatum text = .ok d' := by
  have hbegins := hreads.begins []
  have hread := hreads.datum 0 [] boundary_nil (by omega)
  rw [List.append_nil, ← htext] at hbegins hread
  obtain ⟨c, rest, hcs, -, -⟩ := hbegins.head
  have hskip := hbegins.skip
  rw [hcs] at hskip hread
  rw [← hskip] at hread
  obtain ⟨_, hread⟩ := hread
  rw [parseDatum, hcs]
  split
  · rename_i hnil
    cases hskip.symm.trans hnil
  · simp [hread, skipAtmosphere]

theorem parseDatum_name_iff {x : Symbol} :
    parseDatum x.name = .ok (.symbol x) ↔ SymbolToken x := by
  refine ⟨symbolToken_of_parseDatum, fun h => h.readsBack.parseDatum_eq ?_ ?_⟩
  · simp [Datum.depth, maxDepth]
  · simp [Datum.written, Datum.atomText]

/-- Reading undoes writing: the text of a value that is acyclic, readable and within the limits of
reader and printer is read as a value that is equal to it and has the same text. -/
theorem parseDatum_writeText {s : Store} {v : Value} (h : s.Holds v d) (hd : d.Readable)
    (hdepth : d.depth ≤ 63) (hnodes : d.nodes ≤ 10000) :
    ∃ d', parseDatum (s.writeText v) = .ok d' ∧
      (d'.place s).2.equal? (d'.place s).1 v = some true ∧
      (d'.place s).2.writeText (d'.place s).1 = s.writeText v := by
  have hwritten := h.writeText hnodes
  have hplaced := s.place_placed d
  refine ⟨d, ?_, ?_, ?_⟩
  · exact (readsBack_of_readable hd).parseDatum_eq (Nat.lt_succ_of_le hdepth) hwritten
  · exact hplaced.holds.equal? (h.grow hplaced.grows)
      (Nat.le_trans (Nat.le_add_left _ _) hplaced.cells_le)
  · exact String.toList_inj.mp ((hplaced.holds.writeText hnodes).trans hwritten.symm)

theorem parseDatum_writeText_dotted :
    let d := Datum.pair (.name "...") (.pair (.char '(') (.vector [.int (-3), .null]))
    let s := (d.place .empty).2
    let v := (d.place .empty).1
    ∃ d', parseDatum (s.writeText v) = .ok d' ∧
      (d'.place s).2.equal? (d'.place s).1 v = some true ∧
      (d'.place s).2.writeText (d'.place s).1 = s.writeText v := by
  have htoken : SymbolToken (.user "...") :=
    ⟨by decide, List.all_eq_true.mp rfl, by decide, rfl⟩
  have hname := parseDatum_name_iff.mpr htoken
  refine parseDatum_writeText (Store.empty.place_placed _).holds ?_ ?_ ?_
  · refine .pair (.symbol hname) (.pair (.char '(') (.vector fun d hd => ?_))
    simp only [List.mem_cons, List.not_mem_nil, or_false] at hd
    rcases hd with rfl | rfl
    · exact .int (-3)
    · exact .null
  · simp [Datum.depth, Datum.tailDepth, Datum.name]
  · simp [Datum.nodes, Datum.tailNodes, Datum.name]

end Reader
end HygienicScheme
