import HygienicScheme.Proofs.Reading.Lines

/-!
# Progress and the limit of nesting

Reading a datum may need other data to be read: the items of a list, what an abbreviation stands
before, what a datum comment drops and what follows it. Each of them begins further on in the text,
so that no chain of data that need each other is endless, and it stands at most one level deeper. A
fault of one that is needed is a fault of the whole. Since faults other than that of the depth are
laid where reading has come to, a text is rejected as too deep exactly if reading it comes to a
place for a datum inside as many lists, vectors and abbreviations as the limit allows.
-/
namespace HygienicScheme.Reader

inductive ItemPlace (close : Char) (depth : Nat) : List Datum → List Char → List Char → Prop
  | item {seen : List Datum} {cs more : List Char} {c : Char}
      (hskip : skipAtmosphere cs = c :: more) (hclose : c ≠ close) (hbracket : c ≠ ')' ∧ c ≠ ']')
      (hdot : isLoneDot c more = false) : ItemPlace close depth seen cs (c :: more)
  | tail {seen : List Datum} {cs more : List Char} {c : Char}
      (hskip : skipAtmosphere cs = c :: more) (hclose : c ≠ close) (hbracket : c ≠ ')' ∧ c ≠ ']')
      (hdot : isLoneDot c more) (hseen : seen ≠ []) :
      ItemPlace close depth seen cs (skipAtmosphere more)
  | later {seen : List Datum} {cs more more' place : List Char} {c : Char} {d : Datum}
      (hskip : skipAtmosphere cs = c :: more) (hclose : c ≠ close) (hbracket : c ≠ ')' ∧ c ≠ ']')
      (hdot : isLoneDot c more = false) (hread : Reads depth (c :: more) d more')
      (hplace : ItemPlace close depth (d :: seen) more' place) :
      ItemPlace close depth seen cs place

/-- Reading a datum at the first place, a depth with the text there, needs one at the second. -/
inductive Needs : Nat × List Char → Nat × List Char → Prop
  | list {depth : Nat} {cs more place : List Char} {close : Char} (hdepth : depth < maxDepth)
      (hscan : scan cs = .ok (.list close, more))
      (hplace : ItemPlace close (depth + 1) [] more place) : Needs (depth, cs) (depth + 1, place)
  | vector {depth : Nat} {cs more place : List Char} (hdepth : depth < maxDepth)
      (hscan : scan cs = .ok (.vector, more))
      (hplace : ItemPlace ')' (depth + 1) [] more place) : Needs (depth, cs) (depth + 1, place)
  | abbreviation {depth : Nat} {cs more : List Char} {keyword : String} (hdepth : depth < maxDepth)
      (hscan : scan cs = .ok (.abbreviation keyword, more)) :
      Needs (depth, cs) (depth + 1, skipAtmosphere more)
  | dropped {depth : Nat} {cs more : List Char} (hdepth : depth < maxDepth)
      (hscan : scan cs = .ok (.comment, more)) : Needs (depth, cs) (depth, skipAtmosphere more)
  | commented {depth : Nat} {cs more more' : List Char} {d : Datum} (hdepth : depth < maxDepth)
      (hscan : scan cs = .ok (.comment, more))
      (hdropped : Reads depth (skipAtmosphere more) d more') :
      Needs (depth, cs) (depth, skipAtmosphere more')

inductive DatumStarts : List Char → List Char → Prop
  | first {cs more : List Char} {c : Char} (hskip : skipAtmosphere cs = c :: more) :
      DatumStarts cs (c :: more)
  | later {cs more more' start : List Char} {c : Char} {d : Datum}
      (hskip : skipAtmosphere cs = c :: more) (hread : Reads 0 (c :: more) d more')
      (hstart : DatumStarts more' start) : DatumStarts cs start

variable {cs rest more place start : List Char} {c close : Char} {d tail : Datum} {depth : Nat}
  {seen items ds : List Datum} {t : Token} {f : Fault} {p q : Nat × List Char}

/-! ### What is left is shorter -/

theorem suffix_of_skipped (h : skipAtmosphere cs = c :: rest) : rest <:+ cs :=
  ((List.suffix_cons c rest).trans (h ▸ skipAtmosphere_suffix cs))

mutual

theorem Reads.suffix {depth : Nat} {cs rest : List Char} {d : Datum} :
    Reads depth cs d rest → rest <:+ cs
  | .constant _ hscan => scan_suffix hscan
  | .list _ hscan hitems => hitems.suffix.trans (scan_suffix hscan)
  | .vector _ hscan hitems => hitems.suffix.trans (scan_suffix hscan)
  | .abbreviation _ hscan hread =>
    (hread.suffix.trans (skipAtmosphere_suffix _)).trans (scan_suffix hscan)
  | .comment _ hscan hdropped hread =>
    (((hread.suffix.trans (skipAtmosphere_suffix _)).trans hdropped.suffix).trans
      (skipAtmosphere_suffix _)).trans (scan_suffix hscan)

theorem ReadsItems.suffix {close : Char} {depth : Nat} {seen items : List Datum}
    {cs rest : List Char} {tail : Datum} :
    ReadsItems close depth seen cs items tail rest → rest <:+ cs
  | .close hskip => suffix_of_skipped hskip
  | .dot hskip _ _ _ _ htail hend =>
    (((suffix_of_skipped hend).trans htail.suffix).trans (skipAtmosphere_suffix _)).trans
      (suffix_of_skipped hskip)
  | .item hskip _ _ _ hread hmore =>
    (hmore.suffix.trans hread.suffix).trans (hskip ▸ skipAtmosphere_suffix _)

end

theorem ItemPlace.suffix (h : ItemPlace close depth seen cs place) : place <:+ cs := by
  induction h with
  | item hskip => exact hskip ▸ skipAtmosphere_suffix _
  | tail hskip => exact (skipAtmosphere_suffix _).trans (suffix_of_skipped hskip)
  | later hskip _ _ _ hread _ ih =>
    exact (ih.trans hread.suffix).trans (hskip ▸ skipAtmosphere_suffix _)

theorem length_lt_of_scan (hscan : scan cs = .ok (t, more)) (h : place <:+ more) :
    place <:+ cs ∧ place.length < cs.length :=
  ⟨h.trans (scan_suffix hscan), Nat.lt_of_le_of_lt h.length_le (scan_progress hscan)⟩

theorem Needs.suffix (h : Needs p q) : q.2 <:+ p.2 ∧ q.2.length < p.2.length := by
  cases h with
  | list _ hscan hplace => exact length_lt_of_scan hscan hplace.suffix
  | vector _ hscan hplace => exact length_lt_of_scan hscan hplace.suffix
  | abbreviation _ hscan => exact length_lt_of_scan hscan (skipAtmosphere_suffix _)
  | dropped _ hscan => exact length_lt_of_scan hscan (skipAtmosphere_suffix _)
  | commented _ hscan hdropped =>
    exact length_lt_of_scan hscan (((skipAtmosphere_suffix _).trans hdropped.suffix).trans
      (skipAtmosphere_suffix _))

theorem Needs.depth_le (h : Needs p q) : q.1 ≤ maxDepth := by
  cases h with
  | list hdepth | vector hdepth | abbreviation hdepth => exact hdepth
  | dropped hdepth | commented hdepth => exact Nat.le_of_lt hdepth

theorem wellFounded_needs : WellFounded (Function.swap Needs) :=
  Subrelation.wf (fun h => h.suffix.2) (measure fun p : Nat × List Char => p.2.length).wf

/-! ### Faults -/

theorem ItemPlace.fault (h : ItemPlace close depth seen cs place)
    (hf : readDatum depth place = .error f) : readItems close depth seen cs = .error f := by
  induction h with
  | item hskip hclose hbracket hdot => exact readItems_item_fault hskip hclose hbracket hdot hf
  | tail hskip hclose hbracket hdot hseen =>
    exact readItems_dot_fault hskip hclose hbracket hdot hseen hf
  | later hskip hclose hbracket hdot hread _ ih =>
    obtain ⟨_, hread⟩ := hread.readsTo
    exact readItems_more_fault hskip hclose hbracket hdot hread (ih hf)

/-- A fault of what is needed is one of the whole, unless no datum begins there. -/
theorem Needs.fault (h : Needs p q) (hf : readDatum q.1 q.2 = .error f)
    (hkind : f.kind ≠ .noDatum) : readDatum p.1 p.2 = .error f := by
  cases h with
  | list hdepth hscan hplace => exact readDatum_list_fault hdepth hscan (hplace.fault hf) hkind
  | vector hdepth hscan hplace => exact readDatum_vector_fault hdepth hscan (hplace.fault hf) hkind
  | abbreviation hdepth hscan => exact readDatum_abbreviation_fault hdepth hscan hf hkind
  | dropped hdepth hscan => exact readDatum_dropped_fault hdepth hscan hf
  | commented hdepth hscan hdropped =>
    obtain ⟨_, hdropped⟩ := hdropped.readsTo
    exact readDatum_comment_fault hdepth hscan hdropped hf

theorem fault_of_needed (h : Relation.ReflTransGen Needs p q) (hf : readDatum q.1 q.2 = .error f)
    (hkind : f.kind ≠ .noDatum) : readDatum p.1 p.2 = .error f := by
  induction h using Relation.ReflTransGen.head_induction_on with
  | refl => exact hf
  | head hneeds _ ih => exact hneeds.fault ih hkind

structure Fault.Local (f : Fault) (cs : List Char) : Prop where
  suffix : f.rest <:+ cs
  kind_ne : f.kind ≠ .tooDeep

theorem Fault.Local.suffix_trans (h : f.Local rest) (hr : rest <:+ cs) : f.Local cs :=
  ⟨h.suffix.trans hr, h.kind_ne⟩

theorem numberOf_error {token : List Char} {kind : FaultKind} (h : numberOf token = .error kind) :
    kind ≠ .tooDeep := by
  unfold numberOf at h
  split_ifs at h <;> split at h <;> cases h <;> decide

theorem atomOf_error {token : List Char} {kind : FaultKind} (h : atomOf token = .error kind) :
    kind ≠ .tooDeep := by
  unfold atomOf at h
  split_ifs at h
  · exact numberOf_error h
  · cases h
    decide

theorem hashAtomOf_error {token : List Char} {kind : FaultKind}
    (h : hashAtomOf token = .error kind) : kind ≠ .tooDeep := by
  unfold hashAtomOf at h
  split at h
  case h_5 =>
    dsimp only at h
    split_ifs at h
    · cases h
      decide
    · split at h <;> cases h
      decide
    · cases h
      decide
  all_goals cases h
  decide

theorem characterOf_error {first : Char} {more : List Char} {kind : FaultKind}
    (h : characterOf first more = .error kind) : kind ≠ .tooDeep := by
  unfold characterOf at h
  split_ifs at h
  split at h <;> cases h
  decide

theorem local_of_atomAt {result : Except FaultKind Datum} (hsuffix : start <:+ cs)
    (hkind : ∀ kind, result = .error kind → kind ≠ .tooDeep)
    (h : atomAt start result rest = .error f) : f.Local cs := by
  cases result with
  | ok d => cases h
  | error kind =>
    cases h
    exact ⟨hsuffix, hkind kind rfl⟩

theorem stringBody_error {text cs : List Char} (h : stringBody text cs = .error f) :
    f.Local cs := by
  fun_induction stringBody text cs with
  | case1 => cases h
  | case2 text cs ih | case3 text cs ih | case4 text cs ih | case5 text cs ih | case6 text cs ih =>
    exact ((ih h).suffix_trans (List.suffix_cons _ _)).suffix_trans (List.suffix_cons _ _)
  | case7 text =>
    cases h
    exact ⟨List.nil_suffix, by decide⟩
  | case8 text cs =>
    cases h
    exact ⟨List.suffix_rfl, by simp⟩
  | case9 text c cs _ _ ih => exact (ih h).suffix_trans (List.suffix_cons _ _)
  | case10 text =>
    cases h
    exact ⟨List.suffix_rfl, by decide⟩

theorem scan_error (h : scan cs = .error f) : f.Local cs := by
  unfold scan at h
  split at h
  case h_1 =>
    cases h
    exact ⟨List.suffix_rfl, by decide⟩
  case h_8 body =>
    cases hbody : stringBody [] body with
    | ok r =>
      rw [hbody] at h
      cases h
    | error f' =>
      rw [hbody] at h
      cases h
      exact (stringBody_error hbody).suffix_trans (List.suffix_cons _ _)
  case h_11 => exact local_of_atomAt List.suffix_rfl (fun _ => characterOf_error) h
  case h_12 => exact local_of_atomAt List.suffix_rfl (fun _ => hashAtomOf_error) h
  case h_13 =>
    split_ifs at h
    · exact local_of_atomAt List.suffix_rfl (fun _ => atomOf_error) h
    · cases h
      exact ⟨List.suffix_rfl, nofun⟩
  all_goals cases h

theorem Fault.within_needed {kind : FaultKind} {place : Nat × List Char} (hkind : kind ≠ .tooDeep)
    (h : f.Local cs ∨ ∃ q, Needs place q ∧ readDatum q.1 q.2 = .error f) :
    (f.within kind cs).Local cs ∨
      ∃ q, Needs place q ∧ readDatum q.1 q.2 = .error (f.within kind cs) := by
  unfold Fault.within
  split_ifs
  · exact .inl ⟨List.suffix_rfl, hkind⟩
  · exact h

theorem closeTail_error (h : closeTail close cs = .error f) : f.Local cs := by
  cases cs with
  | nil =>
    cases h
    exact ⟨List.suffix_rfl, nofun⟩
  | cons c cs =>
    unfold closeTail at h
    dsimp only at h
    split_ifs at h
    cases h
    exact ⟨List.suffix_rfl, nofun⟩

/-- Where the items of a list cannot be read, it is for the text behind them or for one of them. -/
theorem readItems_error {cs : List Char} {seen : List Datum}
    (h : readItems close depth seen cs = .error f) :
    f.Local cs ∨ ∃ place, ItemPlace close depth seen cs place ∧
      readDatum depth place = .error f := by
  rw [readItems] at h
  split at h
  · cases h
    -- The text ends before the bracket.
    exact .inl ⟨List.nil_suffix, by simp⟩
  · rename_i c more hskip
    have hsuffix := skipAtmosphere_suffix cs
    rw [hskip] at hsuffix
    split_ifs at h with hend hbracket hdot hempty
    · cases h
      -- The bracket is of the other kind.
      exact .inl ⟨hsuffix, by simp⟩
    · cases h
      -- A point comes before all items.
      exact .inl ⟨hsuffix, by simp⟩
    · have hne : c ≠ close := by simpa using hend
      have hne' : c ≠ ')' ∧ c ≠ ']' := by simpa using hbracket
      -- A point, and the last datum behind it.
      have hseen : seen ≠ [] := by simpa using hempty
      split at h
      · rename_i hread
        cases h
        exact .inr ⟨_, .tail hskip hne hne' hdot hseen, hread⟩
      · rename_i last rest hd hread
        have hrest := (reads_of_readDatum hread).suffix
        split at h
        · rename_i htaken
          cases h
          refine .inl ((closeTail_error htaken).suffix_trans ?_)
          exact (((skipAtmosphere_suffix _).trans hrest).trans (skipAtmosphere_suffix _)).trans
            (suffix_of_skipped hskip)
        · cases h
    · have hne : c ≠ close := by simpa using hend
      have hne' : c ≠ ')' ∧ c ≠ ']' := by simpa using hbracket
      have hdot' : isLoneDot c more = false := by simpa using hdot
      split at h
      · rename_i hread
        cases h
        exact .inr ⟨_, .item hskip hne hne' hdot', hread⟩
      · rename_i item rest hd hread
        have hitem := reads_of_readDatum hread
        have hshort : rest.length < cs.length := Nat.lt_of_lt_of_le hd hsuffix.length_le
        split at h
        · rename_i hmore
          cases h
          rcases readItems_error hmore with hlocal | ⟨place, hplace, hf⟩
          · exact .inl (hlocal.suffix_trans (hitem.suffix.trans hsuffix))
          · exact .inr ⟨place, .later hskip hne hne' hdot' hitem hplace, hf⟩
        · cases h
termination_by cs.length

/-- Where a datum cannot be read, it is for its own text or for a datum that it needs. -/
theorem readDatum_error (hdepth : depth < maxDepth) (h : readDatum depth cs = .error f) :
    f.Local cs ∨ ∃ q, Needs (depth, cs) q ∧ readDatum q.1 q.2 = .error f := by
  rw [readDatum, if_neg (Nat.not_le.mpr hdepth)] at h
  split at h
  · rename_i hscan
    cases h
    exact .inl (scan_error hscan)
  · cases h
  · rename_i close more hscan
    split at h
    · rename_i hitems
      cases h
      refine Fault.within_needed (by simp) ?_
      rcases readItems_error hitems with hlocal | ⟨place, hplace, hf⟩
      · exact .inl (hlocal.suffix_trans (scan_suffix hscan))
      · exact .inr ⟨_, .list hdepth hscan hplace, hf⟩
    · cases h
  · rename_i more hscan
    split at h
    · rename_i hitems
      cases h
      refine Fault.within_needed (by simp) ?_
      rcases readItems_error hitems with hlocal | ⟨place, hplace, hf⟩
      · exact .inl (hlocal.suffix_trans (scan_suffix hscan))
      · exact .inr ⟨_, .vector hdepth hscan hplace, hf⟩
    · cases h
    · cases h
      exact .inl ⟨List.suffix_rfl, by simp⟩
  · rename_i keyword more hscan
    split at h
    · rename_i hread
      cases h
      exact Fault.within_needed (by simp) (.inr ⟨_, .abbreviation hdepth hscan, hread⟩)
    · cases h
  · rename_i more hscan
    split at h
    · rename_i hdropped
      cases h
      exact .inr ⟨_, .dropped hdepth hscan, hdropped⟩
    · rename_i hdropped
      split at h
      · rename_i hread
        cases h
        exact .inr ⟨_, .commented hdepth hscan (reads_of_readDatum hdropped), hread⟩
      · cases h

theorem readDatum_over_limit (hdepth : maxDepth ≤ depth) (cs : List Char) :
    readDatum depth cs = .error ⟨.tooDeep, cs⟩ := by
  rw [readDatum, if_pos hdepth]

theorem fault_suffix {depth : Nat} {cs : List Char} (h : readDatum depth cs = .error f) :
    f.rest <:+ cs := by
  by_cases hdepth : depth < maxDepth
  · rcases readDatum_error hdepth h with hlocal | ⟨q, hneeds, hq⟩
    · exact hlocal.suffix
    · obtain ⟨hsuffix, hshort⟩ := hneeds.suffix
      exact (fault_suffix hq).trans hsuffix
  · cases (readDatum_over_limit (Nat.le_of_not_lt hdepth) cs).symm.trans h
    exact List.suffix_rfl
termination_by cs.length

/-- A datum is too deep exactly if reading it comes to a place at the limit. -/
theorem readDatum_tooDeep_iff {depth : Nat} {cs rest : List Char} (hdepth : depth ≤ maxDepth) :
    readDatum depth cs = .error ⟨.tooDeep, rest⟩ ↔
      Relation.ReflTransGen Needs (depth, cs) (maxDepth, rest) := by
  constructor
  · intro h
    rcases Nat.lt_or_eq_of_le hdepth with hlt | rfl
    · rcases readDatum_error hlt h with hlocal | ⟨q, hneeds, hq⟩
      · exact absurd rfl hlocal.kind_ne
      · have hshort := hneeds.suffix.2
        exact .head hneeds ((readDatum_tooDeep_iff hneeds.depth_le).mp hq)
    · cases (readDatum_over_limit (Nat.le_refl _) cs).symm.trans h
      exact .refl
  · intro h
    exact fault_of_needed h (readDatum_over_limit (Nat.le_refl _) rest) nofun
termination_by cs.length

/-! ### Data and programs -/

theorem depth_lt_listWithTail {n : Nat} (hitems : ∀ d ∈ items, d.depth + 1 < n)
    (htail : tail.tailDepth < n) : (Datum.listWithTail items tail).tailDepth < n := by
  induction items with
  | nil => exact htail
  | cons d items ih =>
    obtain ⟨hd, hitems⟩ := List.forall_mem_cons.mp hitems
    have hmore := ih hitems
    rw [Datum.listWithTail] at hmore
    rw [Datum.listWithTail, List.foldr_cons, Datum.tailDepth]
    exact max_lt hd hmore

theorem tailDepth_le (d : Datum) : d.tailDepth ≤ d.depth + 1 := by
  cases d <;> simp [Datum.tailDepth, Datum.depth]

theorem depth_le_tailDepth (d : Datum) : d.depth ≤ d.tailDepth := by
  cases d <;> simp [Datum.tailDepth, Datum.depth]

theorem depth_lt_vector {n : Nat} (hpos : 0 < n) (hitems : ∀ d ∈ items, d.depth + 1 < n) :
    (Datum.vector items).depth < n := by
  rw [Datum.depth]
  induction items with
  | nil => exact hpos
  | cons d items ih =>
    obtain ⟨hd, hitems⟩ := List.forall_mem_cons.mp hitems
    exact max_lt hd (ih hitems)

theorem depth_atomOf {token : List Char} (h : atomOf token = .ok d) : d.depth = 0 := by
  unfold atomOf numberOf at h
  split_ifs at h
  · split at h <;> cases h
    exact Datum.depth.eq_def _
  · split at h <;> cases h
    exact Datum.depth.eq_def _
  · cases h
    exact Datum.depth.eq_def _

theorem depth_hashAtomOf {token : List Char} (h : hashAtomOf token = .ok d) : d.depth = 0 := by
  unfold hashAtomOf at h
  split at h
  case h_5 =>
    dsimp only at h
    split_ifs at h
    split at h <;> cases h
    exact Datum.depth.eq_def _
  case h_6 => cases h
  all_goals
    cases h
    exact Datum.depth.eq_def _

theorem depth_characterOf {first : Char} (h : characterOf first more = .ok d) : d.depth = 0 := by
  unfold characterOf at h
  split_ifs at h
  · cases h
    exact Datum.depth.eq_def _
  · split at h <;> cases h <;> exact Datum.depth.eq_def _

theorem depth_of_scan (h : scan cs = .ok (.constant d, rest)) : d.depth = 0 := by
  unfold scan at h
  split at h
  case h_8 body =>
    cases hbody : stringBody [] body with
    | error f =>
      rw [hbody] at h
      cases h
    | ok r =>
      rw [hbody] at h
      cases h
      exact Datum.depth.eq_def _
  case h_11 => exact depth_characterOf (atomAt_eq_ok h).1
  case h_12 => exact depth_hashAtomOf (atomAt_eq_ok h).1
  case h_13 =>
    split_ifs at h
    exact depth_atomOf (atomAt_eq_ok h).1
  all_goals cases h

mutual

theorem Reads.depth_add_lt {depth : Nat} {cs rest : List Char} {d : Datum} :
    Reads depth cs d rest → depth + d.depth < maxDepth
  | .constant hdepth hscan => by
    rw [depth_of_scan hscan]
    exact hdepth
  | @Reads.list _ _ _ _ _ items tail hdepth hscan hitems => by
    obtain ⟨hall, htail⟩ := hitems.depth_add_lt hdepth (List.forall_mem_nil _)
    have hitem : ∀ d ∈ items, d.depth + 1 < maxDepth - depth := fun d hd => by
      have hd := hall d hd
      omega
    have hlist := depth_lt_listWithTail hitem (show tail.tailDepth < maxDepth - depth by omega)
    have hle := depth_le_tailDepth (.listWithTail items tail)
    omega
  | @Reads.vector _ _ _ _ items hdepth hscan hitems => by
    obtain ⟨hall, -⟩ := hitems.depth_add_lt hdepth (List.forall_mem_nil _)
    have hitem : ∀ d ∈ items, d.depth + 1 < maxDepth - depth := fun d hd => by
      have hd := hall d hd
      omega
    have hvector := depth_lt_vector (Nat.sub_pos_of_lt hdepth) hitem
    omega
  | .abbreviation hdepth hscan hread => by
    have hd := hread.depth_add_lt
    simp only [Datum.list, Datum.listWithTail, List.foldr_cons, List.foldr_nil, Datum.depth,
      Datum.tailDepth, Datum.name]
    omega
  | .comment _ _ _ hread => hread.depth_add_lt

theorem ReadsItems.depth_add_lt {close : Char} {depth : Nat} {seen items : List Datum}
    {cs rest : List Char} {tail : Datum} (hdepth : depth ≤ maxDepth)
    (hseen : ∀ d ∈ seen, depth + d.depth < maxDepth) :
    ReadsItems close depth seen cs items tail rest →
      (∀ d ∈ items, depth + d.depth < maxDepth) ∧ depth + tail.tailDepth ≤ maxDepth
  | .close _ => by
    rw [Datum.tailDepth]
    exact ⟨fun d hd => hseen d (List.mem_reverse.mp hd), hdepth⟩
  | .dot _ _ _ _ _ htail _ => by
    have hlast := htail.depth_add_lt
    have hle := tailDepth_le tail
    exact ⟨fun d hd => hseen d (List.mem_reverse.mp hd), by omega⟩
  | .item _ _ _ _ hread hmore =>
    hmore.depth_add_lt hdepth (List.forall_mem_cons.mpr ⟨hread.depth_add_lt, hseen⟩)

end

theorem readAll_depth_lt {cs : List Char} {ds : List Datum} (h : readAll cs = .ok ds) :
    ∀ d ∈ ds, d.depth < maxDepth := by
  rcases readAll_ok h with ⟨rfl, -⟩ | ⟨c, start, d, r, ds, hskip, hd, hmore, rfl⟩
  · exact nofun
  · have hshort := Nat.lt_of_lt_of_le r.2 (hskip ▸ skipAtmosphere_length cs)
    have hfirst := (reads_of_readDatum hd).depth_add_lt
    rw [Nat.zero_add] at hfirst
    exact List.forall_mem_cons.mpr ⟨hfirst, readAll_depth_lt hmore⟩
termination_by cs.length

/-- A program cannot be read exactly if one of its data cannot. -/
theorem readAll_error_iff {cs : List Char} :
    readAll cs = .error f ↔ ∃ start, DatumStarts cs start ∧ readDatum 0 start = .error f := by
  constructor
  · intro h
    cases hskip : skipAtmosphere cs with
    | nil => cases (readAll_nil hskip).symm.trans h
    | cons c more =>
      cases hd : readDatum 0 (c :: more) with
      | error f' =>
        cases (readAll_fault hskip hd).symm.trans h
        exact ⟨_, .first hskip, hd⟩
      | ok read =>
        obtain ⟨d, r⟩ := read
        have hshort := Nat.lt_of_lt_of_le r.2 (hskip ▸ skipAtmosphere_length cs)
        have hall := h.symm.trans (readAll_cons hskip hd)
        cases hmore : readAll r.1 with
        | ok ds =>
          rw [hmore] at hall
          cases hall
        | error f' =>
          rw [hmore] at hall
          cases hall
          obtain ⟨start, hstart, hf⟩ := readAll_error_iff.mp hmore
          exact ⟨start, .later hskip (reads_of_readDatum hd) hstart, hf⟩
  · rintro ⟨start, hstart, hf⟩
    induction hstart with
    | first hskip => exact readAll_fault hskip hf
    | later hskip hread _ ih =>
      obtain ⟨_, hread⟩ := hread.readsTo
      rw [readAll_cons hskip hread, ih hf]
      rfl
termination_by cs.length

theorem toError_tooDeep_iff (input : List Char) :
    (f.toError input).kind = .tooDeeplyNested ↔ f.kind = .tooDeep := by
  obtain ⟨kind, rest⟩ := f
  cases kind <;> cases rest <;> simp [Fault.toError, Fault.report, ParseError.withContext]

def ReachesLimit (start : List Char) : Prop :=
  ∃ rest, Relation.ReflTransGen Needs (0, start) (maxDepth, rest)

theorem reachesLimit_iff : ReachesLimit start ↔
    ∃ f : Fault, readDatum 0 start = .error f ∧ f.kind = .tooDeep := by
  have hplace (rest : List Char) : readDatum 0 start = .error ⟨.tooDeep, rest⟩ ↔
      Relation.ReflTransGen Needs (0, start) (maxDepth, rest) :=
    readDatum_tooDeep_iff (Nat.zero_le maxDepth)
  constructor
  · rintro ⟨rest, hrest⟩
    exact ⟨_, (hplace rest).mpr hrest, rfl⟩
  · rintro ⟨⟨kind, rest⟩, hf, rfl⟩
    exact ⟨rest, (hplace rest).mp hf⟩

theorem parseProgram_tooDeep_iff {text : String} :
    (∃ e, parseProgram text = .error e ∧ e.kind = .tooDeeplyNested) ↔
      ∃ start, DatumStarts text.toList start ∧ ReachesLimit start := by
  simp only [reachesLimit_iff]
  constructor
  · rintro ⟨e, he, hkind⟩
    unfold parseProgram at he
    split at he
    · rename_i f hf
      cases he
      obtain ⟨start, hstart, hread⟩ := readAll_error_iff.mp hf
      exact ⟨start, hstart, f, hread, (toError_tooDeep_iff _).mp hkind⟩
    · cases he
  · rintro ⟨start, hstart, f, hread, hkind⟩
    have hf := readAll_error_iff.mpr ⟨start, hstart, hread⟩
    exact ⟨f.toError text.toList, by rw [parseProgram, hf], (toError_tooDeep_iff _).mpr hkind⟩

theorem parseDatum_fault {text : String} (hskip : skipAtmosphere text.toList ≠ [])
    (h : readDatum 0 (skipAtmosphere text.toList) = .error f) :
    parseDatum text = .error (f.toError text.toList) := by
  unfold parseDatum
  dsimp only
  split
  · exact absurd ‹_› hskip
  · rw [h]

theorem parseDatum_error {text : String} {e : ParseError} (h : parseDatum text = .error e) :
    e = emptyInput ∨ (∃ rest, e = trailing text.toList rest) ∨
      ∃ f, readDatum 0 (skipAtmosphere text.toList) = .error f ∧ e = f.toError text.toList := by
  unfold parseDatum at h
  dsimp only at h
  split at h
  · cases h
    exact .inl rfl
  · split at h
    · rename_i f hf
      cases h
      exact .inr (.inr ⟨f, hf, rfl⟩)
    · split at h
      · cases h
      · cases h
        exact .inr (.inl ⟨_, rfl⟩)

theorem parseDatum_tooDeep_iff {text : String} :
    (∃ e, parseDatum text = .error e ∧ e.kind = .tooDeeplyNested) ↔
      ReachesLimit (skipAtmosphere text.toList) := by
  rw [reachesLimit_iff]
  constructor
  · rintro ⟨e, he, hkind⟩
    rcases parseDatum_error he with rfl | ⟨rest, rfl⟩ | ⟨f, hf, rfl⟩
    · cases hkind
    · cases hkind
    · exact ⟨f, hf, (toError_tooDeep_iff _).mp hkind⟩
  · rintro ⟨f, hf, hkind⟩
    refine ⟨f.toError text.toList, parseDatum_fault ?_ hf, (toError_tooDeep_iff _).mpr hkind⟩
    intro hskip
    rw [hskip, readDatum_fault (by decide) rfl] at hf
    cases hf
    cases hkind

/-- How reading goes forward in a text and down its levels, whatever the text. -/
structure ReadsForward : Prop where
  /-- No chain of data that need each other is endless. -/
  ends : WellFounded (Function.swap Needs)
  datum : ∀ depth cs d (r : Rest cs), readDatum depth cs = .ok (d, r) →
    r.1 <:+ cs ∧ r.1.length < cs.length
  items : ∀ close depth seen cs items tail (r : Rest cs),
    readItems close depth seen cs = .ok (items, tail, r) → r.1 <:+ cs ∧ r.1.length < cs.length
  /-- Around every part of what is read there are fewer levels than the limit. -/
  program_depth : ∀ text ds, parseProgram text = .ok ds → ∀ d ∈ ds, d.depth < maxDepth
  datum_depth : ∀ text d, parseDatum text = .ok d → d.depth < maxDepth
  /-- A place for a datum at the limit makes the whole text too deep, whatever follows there, and
  nothing else does. -/
  program_limit : ∀ text, (∃ e, parseProgram text = .error e ∧ e.kind = .tooDeeplyNested) ↔
    ∃ start, DatumStarts text.toList start ∧ ReachesLimit start
  datum_limit : ∀ text, (∃ e, parseDatum text = .error e ∧ e.kind = .tooDeeplyNested) ↔
    ReachesLimit (skipAtmosphere text.toList)

theorem reads_forward : ReadsForward where
  ends := wellFounded_needs
  datum _ _ _ r h := ⟨(reads_of_readDatum h).suffix, r.2⟩
  items _ _ _ _ _ _ r h := ⟨(readsItems_of_readItems h).suffix, r.2⟩
  program_depth _ _ h := readAll_depth_lt (parseProgram_ok_iff.mp h)
  datum_depth _ d h := readAll_depth_lt (parseProgram_ok_iff.mp (parseDatum_iff.mp h)) d
    List.mem_cons_self
  program_limit _ := parseProgram_tooDeep_iff
  datum_limit _ := parseDatum_tooDeep_iff

end HygienicScheme.Reader
