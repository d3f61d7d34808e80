import HygienicScheme.Proofs.Reading.Lines

/-!
# The first lines of a program

A program that can be read is cut behind one of its lines. What was read before the cut is read
from the first lines alone, and where reading them stops early it stops at their end or at the mark
of a block comment that they leave open. So the first lines are a program or an unfinished one,
unless the cut is inside a block comment.
-/
namespace HygienicScheme.Reader

variable {p q cs rest v : List Char} {t : Token} {d : Datum} {depth : Nat} {close c : Char}
  {seen items : List Datum} {f : Fault}

inductive Fault.CutOff : Fault → Bool → Prop
  | atEnd : CutOff ⟨.endOfInput, []⟩ false
  | badToken (cs : List Char) : CutOff ⟨.badToken, '#' :: '|' :: cs⟩ true
  | unexpected (cs : List Char) : CutOff ⟨.unexpectedCharacter, '#' :: '|' :: cs⟩ true
  | tooDeep (cs : List Char) : CutOff ⟨.tooDeep, '#' :: '|' :: cs⟩ true

theorem Fault.CutOff.kind_ne {b : Bool} (h : f.CutOff b) : f.kind ≠ .noDatum := by
  cases h <;> exact nofun

inductive Cut (p q rest : List Char) (done : List Char → Prop) (faults : Fault → Prop) : Prop
  | done (p' : List Char) (hrest : rest = p' ++ q) (hlines : Lines p') (hdone : done p')
      (hinside : insideComment p = insideComment p')
  | broken (f : Fault) (hfault : faults f) (hoff : f.CutOff (insideComment p))

theorem readDatum_over (hdepth : depth < maxDepth) :
    ∃ f, readDatum depth [] = .error f ∧ f.CutOff false :=
  ⟨_, readDatum_fault hdepth rfl, .atEnd⟩

theorem readDatum_open (depth : Nat) (v : List Char) :
    ∃ f, readDatum depth ('#' :: '|' :: v) = .error f ∧ f.CutOff true := by
  by_cases hdepth : depth < maxDepth
  · exact ⟨_, readDatum_fault hdepth (scan_open v), .badToken v⟩
  · refine ⟨⟨.tooDeep, '#' :: '|' :: v⟩, ?_, .tooDeep v⟩
    rw [readDatum, if_pos (Nat.le_of_not_lt hdepth)]

/-- What stands behind the atmosphere of the first lines: nothing, an open block comment, or the
text that stands behind the atmosphere of the whole. -/
theorem skipped_lines (hp : Lines p) (q : List Char) :
    skipAtmosphere p = [] ∨ (∃ v, skipAtmosphere p = '#' :: '|' :: v) ∨
      ∃ c more, skipAtmosphere p = c :: more ∧ Lines (c :: more) ∧
        skipAtmosphere (p ++ q) = c :: (more ++ q) := by
  obtain ⟨hskip, hlines⟩ := skipAtmosphere_lines hp q
  have hbare := bare_skipAtmosphere p
  cases hp' : skipAtmosphere p with
  | nil => exact .inl rfl
  | cons c more =>
    rw [hp'] at hskip hlines hbare
    by_cases hopen : ∃ v, c :: more = '#' :: '|' :: v
    · exact .inr (.inl hopen)
    · refine .inr (.inr ⟨c, more, rfl, hlines, ?_⟩)
      rw [hskip]
      exact hbare.append hlines (fun v hv => hopen ⟨v, hv⟩) q

theorem cut_scan (hp : Lines p) (hdepth : depth < maxDepth) (h : scan (p ++ q) = .ok (t, rest)) :
    (∃ p', rest = p' ++ q ∧ Lines p' ∧ scan p = .ok (t, p') ∧
        insideComment p = insideComment p') ∨
      ∃ f, readDatum depth p = .error f ∧ f.CutOff (insideComment p) := by
  rcases eq_or_ne p [] with rfl | hne
  · rw [insideComment_over skipAtmosphere_nil]
    exact .inr (readDatum_over hdepth)
  rcases scan_lines hp hne h with ⟨p', hrest, hlines, hscan⟩ | ⟨text, rfl, hfault⟩
  · refine .inl ⟨p', hrest, hlines, hscan, insideComment_scan (t := t) ?_⟩
    rwa [skipAtmosphere_of_scan hscan]
  · refine .inr ⟨_, readDatum_fault hdepth hfault, ?_⟩
    rw [insideComment_string hfault]
    exact .atEnd

theorem cut_skipped (hp : Lines p) (hcs : cs = p ++ q) (h : Reads depth (skipAtmosphere cs) d rest)
    (hcut : ∀ p', Lines p' → skipAtmosphere cs = p' ++ q →
      Cut p' q rest (Reads depth p' d) (readDatum depth p' = .error ·)) :
    Cut p q rest (Reads depth (skipAtmosphere p) d)
      (readDatum depth (skipAtmosphere p) = .error ·) := by
  subst hcs
  rcases skipped_lines hp q with hover | ⟨v, hopen⟩ | ⟨c, more, hskip, hlines, hboth⟩
  · obtain ⟨f, hf, hoff⟩ := readDatum_over h.depth_lt
    refine .broken f (hover ▸ hf) ?_
    rwa [insideComment_over hover]
  · obtain ⟨f, hf, hoff⟩ := readDatum_open depth v
    refine .broken f (hopen ▸ hf) ?_
    rwa [insideComment_open hopen]
  · have hinside := insideComment_skipAtmosphere p
    rw [hskip] at hinside ⊢
    cases hcut (c :: more) hlines hboth with
    | done p' hrest hlines' hdone hin => exact .done p' hrest hlines' hdone (hinside ▸ hin)
    | broken f hf hoff => exact .broken f hf (hinside ▸ hoff)

theorem cut_items (hclose : close = ')' ∨ close = ']') (hp : Lines p)
    (h : skipAtmosphere (p ++ q) = c :: rest) :
    (∃ more, rest = more ++ q ∧ skipAtmosphere p = c :: more ∧ Lines (c :: more)) ∨
      ∃ f, readItems close depth seen p = .error f ∧ f.CutOff (insideComment p) := by
  rcases skipped_lines hp q with hover | ⟨v, hopen⟩ | ⟨c', more, hskip, hlines, hboth⟩
  · rw [insideComment_over hover]
    exact .inr ⟨_, readItems_over hover, .atEnd⟩
  · obtain ⟨f, hf, hoff⟩ := readDatum_open depth v
    have hne : '#' ≠ close := by rcases hclose with rfl | rfl <;> decide
    rw [insideComment_open hopen]
    exact .inr ⟨f, readItems_item_fault hopen hne (by decide) rfl hf, hoff⟩
  · obtain ⟨rfl, rfl⟩ := List.cons.inj (hboth.symm.trans h)
    exact .inl ⟨more, rfl, hskip, hlines⟩

theorem cut_end (hclose : close = ')' ∨ close = ']') (hp : Lines p)
    (h : skipAtmosphere (p ++ q) = close :: rest) :
    (∃ more, rest = more ++ q ∧ skipAtmosphere p = close :: more ∧ Lines more) ∨
      ∃ f, closeTail close (skipAtmosphere p) = .error f ∧ f.CutOff (insideComment p) := by
  rcases skipped_lines hp q with hover | ⟨v, hopen⟩ | ⟨c', more, hskip, hlines, hboth⟩
  · rw [insideComment_over hover, hover]
    exact .inr ⟨_, rfl, .atEnd⟩
  · rw [insideComment_open hopen, hopen]
    refine .inr ⟨⟨.unexpectedCharacter, '#' :: '|' :: v⟩, ?_, .unexpected v⟩
    rcases hclose with rfl | rfl <;> rfl
  · obtain ⟨rfl, rfl⟩ := List.cons.inj (hboth.symm.trans h)
    exact .inl ⟨more, rfl, hskip, hlines.tail⟩

theorem isLoneDot_lines (h : Lines (c :: cs)) (q : List Char) :
    isLoneDot c (cs ++ q) = isLoneDot c cs := by
  cases cs with
  | nil =>
    obtain rfl : c = '\n' := h c rfl
    rfl
  | cons x cs => rfl

mutual

theorem Reads.cut {depth : Nat} {cs p q rest : List Char} {d : Datum} (hp : Lines p)
    (hcs : cs = p ++ q) :
    Reads depth cs d rest → Cut p q rest (Reads depth p d) (readDatum depth p = .error ·)
  | .constant hdepth hscan => by
    rcases cut_scan hp hdepth (hcs ▸ hscan) with ⟨p', hrest, hp', hscan', hin⟩ | ⟨f, hf, hoff⟩
    · exact .done p' hrest hp' (.constant hdepth hscan') hin
    · exact .broken f hf hoff
  | .list hdepth hscan hitems => by
    rcases cut_scan hp hdepth (hcs ▸ hscan) with ⟨p', hrest, hp', hscan', hin⟩ | ⟨f, hf, hoff⟩
    · cases hitems.cut (close_of_scan hscan) hp' hrest with
      | done r hrest' hr hdone hin' =>
        exact .done r hrest' hr (.list hdepth hscan' hdone) (hin.trans hin')
      | broken f hf hoff =>
        exact .broken f (readDatum_list_fault hdepth hscan' hf hoff.kind_ne) (hin ▸ hoff)
    · exact .broken f hf hoff
  | .vector hdepth hscan hitems => by
    rcases cut_scan hp hdepth (hcs ▸ hscan) with ⟨p', hrest, hp', hscan', hin⟩ | ⟨f, hf, hoff⟩
    · cases hitems.cut (.inl rfl) hp' hrest with
      | done r hrest' hr hdone hin' =>
        exact .done r hrest' hr (.vector hdepth hscan' hdone) (hin.trans hin')
      | broken f hf hoff =>
        exact .broken f (readDatum_vector_fault hdepth hscan' hf hoff.kind_ne) (hin ▸ hoff)
    · exact .broken f hf hoff
  | .abbreviation hdepth hscan hread => by
    rcases cut_scan hp hdepth (hcs ▸ hscan) with ⟨p', hrest, hp', hscan', hin⟩ | ⟨f, hf, hoff⟩
    · cases cut_skipped hp' hrest hread fun r hr hcs' => hread.cut hr hcs' with
      | done r hrest' hr hdone hin' =>
        exact .done r hrest' hr (.abbreviation hdepth hscan' hdone) (hin.trans hin')
      | broken f hf hoff =>
        exact .broken f (readDatum_abbreviation_fault hdepth hscan' hf hoff.kind_ne) (hin ▸ hoff)
    · exact .broken f hf hoff
  | .comment hdepth hscan hdropped hread => by
    rcases cut_scan hp hdepth (hcs ▸ hscan) with ⟨p', hrest, hp', hscan', hin⟩ | ⟨f, hf, hoff⟩
    · -- Either datum may be broken off, the one that is dropped or the one behind it.
      cases cut_skipped hp' hrest hdropped fun r hr hcs' => hdropped.cut hr hcs' with
      | broken f hf hoff =>
        exact .broken f (readDatum_dropped_fault hdepth hscan' hf) (hin ▸ hoff)
      | done r hrest' hr hdone hin' =>
        obtain ⟨_, hfirst⟩ := hdone.readsTo
        have hin := hin.trans hin'
        cases cut_skipped hr hrest' hread fun r hr hcs' => hread.cut hr hcs' with
        | broken f hf hoff =>
          exact .broken f (readDatum_comment_fault hdepth hscan' hfirst hf) (hin ▸ hoff)
        | done r' hrest' hr' hdone' hin' =>
          exact .done r' hrest' hr' (.comment hdepth hscan' hdone hdone') (hin.trans hin')
    · exact .broken f hf hoff

theorem ReadsItems.cut {close : Char} {depth : Nat} {seen items : List Datum}
    {cs p q rest : List Char} {tail : Datum} (hclose : close = ')' ∨ close = ']') (hp : Lines p)
    (hcs : cs = p ++ q) :
    ReadsItems close depth seen cs items tail rest →
      Cut p q rest (ReadsItems close depth seen p items tail)
        (readItems close depth seen p = .error ·)
  | .close hskip => by
    rcases cut_items hclose hp (hcs ▸ hskip) with ⟨more, hrest, hskip', hlines⟩ | ⟨f, hf, hoff⟩
    · have hmark : isMark close more := by rcases hclose with rfl | rfl <;> rfl
      exact .done more hrest hlines.tail (.close hskip') (insideComment_mark hskip' hmark)
    · exact .broken f hf hoff
  | .dot hskip hne hbracket hdot hseen htail hend => by
    rcases cut_items hclose hp (hcs ▸ hskip) with ⟨more, hrest, hskip', hlines⟩ | ⟨f, hf, hoff⟩
    · -- The point stands alone in the first lines exactly if it does so in the whole text.
      have hdot' := hdot
      rw [hrest, isLoneDot_lines hlines] at hdot'
      have hin := insideComment_mark hskip' (Bool.or_eq_true_iff.mpr (.inr hdot'))
      cases cut_skipped hlines.tail hrest htail fun r hr hcs' => htail.cut hr hcs' with
      | broken f hf hoff =>
        exact .broken f (readItems_dot_fault hskip' hne hbracket hdot' hseen hf) (hin ▸ hoff)
      | done r hrest' hr hdone hin' =>
        obtain ⟨_, hread⟩ := hdone.readsTo
        have hin := hin.trans hin'
        rcases cut_end hclose hr (hrest' ▸ hend) with ⟨r', hrest', hend', hr'⟩ | ⟨f, hf, hoff⟩
        · have hmark : isMark close r' := by rcases hclose with rfl | rfl <;> rfl
          exact .done r' hrest' hr' (.dot hskip' hne hbracket hdot' hseen hdone hend')
            (hin.trans (insideComment_mark hend' hmark))
        · exact .broken f (readItems_end_fault hskip' hne hbracket hdot' hseen hread hf)
            (hin ▸ hoff)
    · exact .broken f hf hoff
  | .item hskip hne hbracket hdot hread hmore => by
    rcases cut_items hclose hp (hcs ▸ hskip) with ⟨more, hrest, hskip', hlines⟩ | ⟨f, hf, hoff⟩
    · have hdot' := hdot
      rw [hrest, isLoneDot_lines hlines] at hdot'
      have hin := insideComment_skipAtmosphere p
      rw [hskip'] at hin
      cases hread.cut hlines (congrArg (List.cons _) hrest) with
      | broken f hf hoff =>
        exact .broken f (readItems_item_fault hskip' hne hbracket hdot' hf) (hin ▸ hoff)
      | done r hrest' hr hdone hin' =>
        obtain ⟨_, hitem⟩ := hdone.readsTo
        have hin := hin.symm.trans hin'
        cases hmore.cut hclose hr hrest' with
        | broken f hf hoff =>
          exact .broken f (readItems_more_fault hskip' hne hbracket hdot' hitem hf) (hin ▸ hoff)
        | done r' hrest' hr' hdone' hin' =>
          exact .done r' hrest' hr' (.item hskip' hne hbracket hdot' hdone hdone') (hin.trans hin')
    · exact .broken f hf hoff

end

/-! ### Programs -/

theorem readAll_cut {p q : List Char} {ds : List Datum} (hp : Lines p)
    (h : readAll (p ++ q) = .ok ds) :
    (insideComment p = false ∧ ∃ xs, readAll p = .ok xs ∧ xs <+: ds) ∨
      ∃ f, readAll p = .error f ∧ f.CutOff (insideComment p) := by
  rcases skipped_lines hp q with hover | ⟨v, hopen⟩ | ⟨c, more, hskip, hlines, hboth⟩
  · exact .inl ⟨insideComment_over hover, [], readAll_nil hover, List.nil_prefix⟩
  · obtain ⟨f, hf, hoff⟩ := readDatum_open 0 v
    rw [insideComment_open hopen]
    exact .inr ⟨f, readAll_fault hopen hf, hoff⟩
  · rcases readAll_ok h with ⟨-, hnil⟩ | ⟨c', start, d, r, xs, hstart, hd, hxs, rfl⟩
    · cases hboth.symm.trans hnil
    · have hcs : c' :: start = (c :: more) ++ q := hstart.symm.trans hboth
      have hin := insideComment_skipAtmosphere p
      rw [hskip] at hin
      cases (reads_of_readDatum hd).cut hlines hcs with
      | broken f hf hoff => exact .inr ⟨f, readAll_fault hskip hf, hin ▸ hoff⟩
      | done p' hrest hp' hdone hin' =>
        obtain ⟨hr, hread⟩ := hdone.readsTo
        have hshort : p'.length < p.length := by
          have hlength := skipAtmosphere_length p
          rw [hskip] at hlength
          exact Nat.lt_of_lt_of_le hr hlength
        have hin := hin.symm.trans hin'
        have hall := readAll_cons hskip hread
        rcases readAll_cut hp' (hrest ▸ hxs) with ⟨hout, ys, hys, hprefix⟩ | ⟨f, hf, hoff⟩
        · rw [hys] at hall
          exact .inl ⟨hin.trans hout, d :: ys, hall, (List.prefix_cons_inj d).mpr hprefix⟩
        · rw [hf] at hall
          exact .inr ⟨f, hall, hin ▸ hoff⟩
termination_by p.length

theorem Fault.CutOff.toError_kind {b : Bool} (h : f.CutOff b) (input : List Char) :
    (b = false → (f.toError input).kind = .incomplete) ∧
      (b = true → (f.toError input).kind = .invalidSyntax ∨
        (f.toError input).kind = .tooDeeplyNested) := by
  cases h with
  | atEnd => exact ⟨fun _ => rfl, nofun⟩
  | badToken => exact ⟨nofun, fun _ => .inl rfl⟩
  | unexpected => exact ⟨nofun, fun _ => .inl rfl⟩
  | tooDeep => exact ⟨nofun, fun _ => .inr rfl⟩

/-- The first lines of a program are a program, of its first forms, or they are incomplete. Only
where they break off inside a block comment, behind a mark that nothing closes, are they reported as
wrong. -/
theorem parseProgram_lines {p q : String} {ds : List Datum} (h : parseProgram (p ++ q) = .ok ds)
    (hp : p.toList.getLast? = some '\n') :
    (insideComment p.toList = false →
        (∃ xs, parseProgram p = .ok xs ∧ xs <+: ds) ∨
          ∃ e, parseProgram p = .error e ∧ e.kind = .incomplete) ∧
      (insideComment p.toList = true →
        (∃ v, '#' :: '|' :: v <:+ p.toList ∧ afterBlock? v = none) ∧
          ∃ e, parseProgram p = .error e ∧
            (e.kind = .invalidSyntax ∨ e.kind = .tooDeeplyNested)) := by
  have hlines : Lines p.toList := by
    intro c hc
    rw [hp] at hc
    exact (Option.some.inj hc).symm
  have hread := parseProgram_ok_iff.mp h
  rw [String.toList_append] at hread
  rcases readAll_cut hlines hread with ⟨hout, xs, hxs, hprefix⟩ | ⟨f, hf, hoff⟩
  · exact ⟨fun _ => .inl ⟨xs, parseProgram_ok_iff.mpr hxs, hprefix⟩, fun hin => by simp_all⟩
  · have herror : parseProgram p = .error (f.toError p.toList) := by
      rw [parseProgram, hf]
    obtain ⟨hover, hopen⟩ := hoff.toError_kind p.toList
    exact ⟨fun hout => .inr ⟨_, herror, hover hout⟩,
      fun hin => ⟨exists_open_of_insideComment hin, _, herror, hopen hin⟩⟩

theorem exists_ok {ε α : Type} {x : Except ε α} (h : x.isOk) : ∃ a, x = .ok a := by
  cases x with
  | error e => cases h
  | ok a => exact ⟨a, rfl⟩

/-- A list with a datum comment in it that the second line goes on with, and a block comment that
it closes. -/
theorem parseProgram_lines_each :
    (∃ ds, parseProgram ("(1 #;\n" ++ "2 \"a\")") = .ok ds) ∧
      (∃ e, parseProgram "(1 #;\n" = .error e ∧ e.kind = .incomplete) ∧
      (∃ ds, parseProgram ("#| a\n" ++ "|# 1") = .ok ds) ∧
      ∃ e, parseProgram "#| a\n" = .error e ∧
        (e.kind = .invalidSyntax ∨ e.kind = .tooDeeplyNested) := by
  obtain ⟨ds, hdatum⟩ : ∃ ds, parseProgram ("(1 #;\n" ++ "2 \"a\")") = .ok ds :=
    exists_ok (by decide +kernel)
  obtain ⟨ds', hblock⟩ : ∃ ds, parseProgram ("#| a\n" ++ "|# 1") = .ok ds :=
    exists_ok (by decide +kernel)
  refine ⟨⟨ds, hdatum⟩, ?_, ⟨ds', hblock⟩, ?_⟩
  · rcases (parseProgram_lines hdatum (by decide)).1 (by decide +kernel) with ⟨xs, hxs, -⟩ | herror
    · have hnot : (parseProgram "(1 #;\n").isOk = false := by decide +kernel
      rw [hxs] at hnot
      cases hnot
    · exact herror
  · exact ((parseProgram_lines hblock (by decide)).2 (by decide +kernel)).2

end HygienicScheme.Reader
