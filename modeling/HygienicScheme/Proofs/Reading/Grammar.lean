import HygienicScheme.Reader.Source

/-!
# How the grammar proceeds

One lemma for each way in which reading a datum or the items of a list goes on, and one for each
part in which it can stop. Each is used where the next token, or the next character behind the
atmosphere, is known.
-/
namespace HygienicScheme.Reader

variable {depth : Nat} {cs rest : List Char} {close : Char} {items : List Datum}

theorem readDatum_constant {d : Datum} (hdepth : depth < maxDepth)
    (h : scan cs = .ok (.constant d, rest)) :
    readDatum depth cs = .ok (d, ⟨rest, scan_progress h⟩) := by
  rw [readDatum, if_neg (Nat.not_le.mpr hdepth)]
  split
  all_goals
    rename_i heq
    cases h.symm.trans heq
  rfl

theorem readDatum_list {tail : Datum} {rest' : Rest rest} (hdepth : depth < maxDepth)
    (h : scan cs = .ok (.list close, rest))
    (hitems : readItems close (depth + 1) [] rest = .ok (items, tail, rest')) :
    ∃ hr, readDatum depth cs = .ok (.listWithTail items tail, ⟨rest'.1, hr⟩) := by
  have hr := scan_progress h
  refine ⟨Nat.lt_trans rest'.2 hr, ?_⟩
  rw [readDatum, if_neg (Nat.not_le.mpr hdepth)]
  split
  all_goals
    rename_i heq
    cases h.symm.trans heq
  simp [hitems, Rest.weaken]

theorem readDatum_vector {rest' : Rest rest} (hdepth : depth < maxDepth)
    (h : scan cs = .ok (.vector, rest))
    (hitems : readItems ')' (depth + 1) [] rest = .ok (items, .null, rest')) :
    ∃ hr, readDatum depth cs = .ok (.vector items, ⟨rest'.1, hr⟩) := by
  have hr := scan_progress h
  refine ⟨Nat.lt_trans rest'.2 hr, ?_⟩
  rw [readDatum, if_neg (Nat.not_le.mpr hdepth)]
  split
  all_goals
    rename_i heq
    cases h.symm.trans heq
  simp [hitems, Rest.weaken]

theorem readDatum_abbreviation {keyword : String} {d : Datum} {rest' : Rest (skipAtmosphere rest)}
    (hdepth : depth < maxDepth) (h : scan cs = .ok (.abbreviation keyword, rest))
    (hd : readDatum (depth + 1) (skipAtmosphere rest) = .ok (d, rest')) :
    ∃ hr, readDatum depth cs = .ok (.list [.name keyword, d], ⟨rest'.1, hr⟩) := by
  have hr := scan_progress h
  have hs := skipAtmosphere_length rest
  have hr' := rest'.2
  refine ⟨by omega, ?_⟩
  rw [readDatum, if_neg (Nat.not_le.mpr hdepth)]
  split
  all_goals
    rename_i heq
    cases h.symm.trans heq
  simp [hd, Rest.weaken]

theorem readDatum_comment {dropped d : Datum} {rest' : Rest (skipAtmosphere rest)}
    {rest'' : Rest (skipAtmosphere rest'.1)} (hdepth : depth < maxDepth)
    (h : scan cs = .ok (.comment, rest))
    (hdropped : readDatum depth (skipAtmosphere rest) = .ok (dropped, rest'))
    (hd : readDatum depth (skipAtmosphere rest'.1) = .ok (d, rest'')) :
    ∃ hr, readDatum depth cs = .ok (d, ⟨rest''.1, hr⟩) := by
  have hr := scan_progress h
  have hs := skipAtmosphere_length rest
  have hs' := skipAtmosphere_length rest'.1
  have hr' := rest'.2
  have hr'' := rest''.2
  refine ⟨by omega, ?_⟩
  rw [readDatum, if_neg (Nat.not_le.mpr hdepth)]
  split
  all_goals
    rename_i heq
    cases h.symm.trans heq
  simp [hdropped, hd, Rest.weaken]

theorem readItems_close (h : skipAtmosphere cs = close :: rest) :
    ∃ hr, readItems close depth items cs = .ok (items.reverse, .null, ⟨rest, hr⟩) := by
  have hs := skipAtmosphere_length cs
  rw [h, List.length_cons] at hs
  refine ⟨hs, ?_⟩
  rw [readItems]
  split
  all_goals
    rename_i heq
    cases h.symm.trans heq
  simp

theorem readItems_dot {d : Datum} {c : Char} {rest' : Rest (skipAtmosphere rest)}
    {rest'' : Rest (skipAtmosphere rest'.1)} (h : skipAtmosphere cs = c :: rest)
    (hc : c ≠ close) (hc' : c ≠ ')' ∧ c ≠ ']') (hdot : isLoneDot c rest) (hitems : items ≠ [])
    (hd : readDatum depth (skipAtmosphere rest) = .ok (d, rest'))
    (hclose : closeTail close (skipAtmosphere rest'.1) = .ok rest'') :
    ∃ hr, readItems close depth items cs = .ok (items.reverse, d, ⟨rest''.1, hr⟩) := by
  have hs := skipAtmosphere_length cs
  have hs' := skipAtmosphere_length rest
  have hs'' := skipAtmosphere_length rest'.1
  have hr' := rest'.2
  have hr'' := rest''.2
  rw [h, List.length_cons] at hs
  refine ⟨by omega, ?_⟩
  rw [readItems]
  split
  all_goals
    rename_i heq
    cases h.symm.trans heq
  simp [hc, hc', hdot, hitems, hd, hclose, Rest.weaken]

theorem readItems_item {d : Datum} {c : Char} {rest' : Rest (c :: rest)}
    (h : skipAtmosphere cs = c :: rest) (hc : c ≠ close) (hc' : c ≠ ')' ∧ c ≠ ']')
    (hdot : isLoneDot c rest = false) (hd : readDatum depth (c :: rest) = .ok (d, rest'))
    {all : List Datum} {tail : Datum} {rest'' : Rest rest'.1}
    (hmore : readItems close depth (d :: items) rest'.1 = .ok (all, tail, rest'')) :
    ∃ hr, readItems close depth items cs = .ok (all, tail, ⟨rest''.1, hr⟩) := by
  have hs := skipAtmosphere_length cs
  have hr' := rest'.2
  have hr'' := rest''.2
  rw [h, List.length_cons] at hs
  refine ⟨by simp only [List.length_cons] at hr'; omega, ?_⟩
  rw [readItems]
  split
  all_goals
    rename_i heq
    cases h.symm.trans heq
  simp [hc, hc', hdot, hd, hmore, Rest.weaken]

/-! ### A fault in a part is the fault of the whole -/

variable {f : Fault} {c : Char} {d : Datum} {keyword : String}

theorem Fault.within_of_ne (h : f.kind ≠ .noDatum) (kind : FaultKind) (start : List Char) :
    f.within kind start = f := if_neg h

theorem readDatum_fault (hdepth : depth < maxDepth) (h : scan cs = .error f) :
    readDatum depth cs = .error f := by
  rw [readDatum, if_neg (Nat.not_le.mpr hdepth)]
  split
  all_goals
    rename_i heq
    cases h.symm.trans heq
  rfl

theorem readDatum_list_fault (hdepth : depth < maxDepth) (h : scan cs = .ok (.list close, rest))
    (hitems : readItems close (depth + 1) [] rest = .error f) (hf : f.kind ≠ .noDatum) :
    readDatum depth cs = .error f := by
  rw [readDatum, if_neg (Nat.not_le.mpr hdepth)]
  split
  all_goals
    rename_i heq
    cases h.symm.trans heq
  simp [hitems, Fault.within_of_ne hf]

theorem readDatum_vector_fault (hdepth : depth < maxDepth) (h : scan cs = .ok (.vector, rest))
    (hitems : readItems ')' (depth + 1) [] rest = .error f) (hf : f.kind ≠ .noDatum) :
    readDatum depth cs = .error f := by
  rw [readDatum, if_neg (Nat.not_le.mpr hdepth)]
  split
  all_goals
    rename_i heq
    cases h.symm.trans heq
  simp [hitems, Fault.within_of_ne hf]

theorem readDatum_abbreviation_fault (hdepth : depth < maxDepth)
    (h : scan cs = .ok (.abbreviation keyword, rest))
    (hd : readDatum (depth + 1) (skipAtmosphere rest) = .error f) (hf : f.kind ≠ .noDatum) :
    readDatum depth cs = .error f := by
  rw [readDatum, if_neg (Nat.not_le.mpr hdepth)]
  split
  all_goals
    rename_i heq
    cases h.symm.trans heq
  simp [hd, Fault.within_of_ne hf]

theorem readDatum_dropped_fault (hdepth : depth < maxDepth) (h : scan cs = .ok (.comment, rest))
    (hdropped : readDatum depth (skipAtmosphere rest) = .error f) :
    readDatum depth cs = .error f := by
  rw [readDatum, if_neg (Nat.not_le.mpr hdepth)]
  split
  all_goals
    rename_i heq
    cases h.symm.trans heq
  simp [hdropped]

theorem readDatum_comment_fault {rest' : Rest (skipAtmosphere rest)} (hdepth : depth < maxDepth)
    (h : scan cs = .ok (.comment, rest))
    (hdropped : readDatum depth (skipAtmosphere rest) = .ok (d, rest'))
    (hd : readDatum depth (skipAtmosphere rest'.1) = .error f) :
    readDatum depth cs = .error f := by
  rw [readDatum, if_neg (Nat.not_le.mpr hdepth)]
  split
  all_goals
    rename_i heq
    cases h.symm.trans heq
  simp [hdropped, hd]

theorem readItems_over (h : skipAtmosphere cs = []) :
    readItems close depth items cs = .error ⟨.endOfInput, []⟩ := by
  rw [readItems]
  split
  · rfl
  · rename_i heq
    cases h.symm.trans heq

theorem readItems_dot_fault (h : skipAtmosphere cs = c :: rest) (hc : c ≠ close)
    (hc' : c ≠ ')' ∧ c ≠ ']') (hdot : isLoneDot c rest) (hitems : items ≠ [])
    (hd : readDatum depth (skipAtmosphere rest) = .error f) :
    readItems close depth items cs = .error f := by
  rw [readItems]
  split
  all_goals
    rename_i heq
    cases h.symm.trans heq
  simp [hc, hc', hdot, hitems, hd]

theorem readItems_end_fault {rest' : Rest (skipAtmosphere rest)} (h : skipAtmosphere cs = c :: rest)
    (hc : c ≠ close) (hc' : c ≠ ')' ∧ c ≠ ']') (hdot : isLoneDot c rest) (hitems : items ≠ [])
    (hd : readDatum depth (skipAtmosphere rest) = .ok (d, rest'))
    (hclose : closeTail close (skipAtmosphere rest'.1) = .error f) :
    readItems close depth items cs = .error f := by
  rw [readItems]
  split
  all_goals
    rename_i heq
    cases h.symm.trans heq
  simp [hc, hc', hdot, hitems, hd, hclose]

theorem readItems_item_fault (h : skipAtmosphere cs = c :: rest) (hc : c ≠ close)
    (hc' : c ≠ ')' ∧ c ≠ ']') (hdot : isLoneDot c rest = false)
    (hd : readDatum depth (c :: rest) = .error f) : readItems close depth items cs = .error f := by
  rw [readItems]
  split
  all_goals
    rename_i heq
    cases h.symm.trans heq
  simp [hc, hc', hdot, hd]

theorem readItems_more_fault {rest' : Rest (c :: rest)} (h : skipAtmosphere cs = c :: rest)
    (hc : c ≠ close) (hc' : c ≠ ')' ∧ c ≠ ']') (hdot : isLoneDot c rest = false)
    (hd : readDatum depth (c :: rest) = .ok (d, rest'))
    (hmore : readItems close depth (d :: items) rest'.1 = .error f) :
    readItems close depth items cs = .error f := by
  rw [readItems]
  split
  all_goals
    rename_i heq
    cases h.symm.trans heq
  simp [hc, hc', hdot, hd, hmore]

end HygienicScheme.Reader
