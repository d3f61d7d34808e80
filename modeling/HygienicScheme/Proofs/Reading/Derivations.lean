import HygienicScheme.Proofs.Reading.RoundTrip

/-!
# The grammar as a relation

`Reads` and `ReadsItems` are derivations of what the reader reads: one rule for each way in which
the grammar goes on. They hold of exactly what `readDatum` and `readItems` give, so that a fact
about everything that can be read is proved by going over the rules.
-/
namespace HygienicScheme.Reader

mutual

inductive Reads : Nat → List Char → Datum → List Char → Prop
  | constant {depth : Nat} {cs rest : List Char} {d : Datum} (hdepth : depth < maxDepth)
      (hscan : scan cs = .ok (.constant d, rest)) : Reads depth cs d rest
  | list {depth : Nat} {cs more rest : List Char} {close : Char} {items : List Datum}
      {tail : Datum} (hdepth : depth < maxDepth) (hscan : scan cs = .ok (.list close, more))
      (hitems : ReadsItems close (depth + 1) [] more items tail rest) :
      Reads depth cs (.listWithTail items tail) rest
  | vector {depth : Nat} {cs more rest : List Char} {items : List Datum}
      (hdepth : depth < maxDepth) (hscan : scan cs = .ok (.vector, more))
      (hitems : ReadsItems ')' (depth + 1) [] more items .null rest) :
      Reads depth cs (.vector items) rest
  | abbreviation {depth : Nat} {cs more rest : List Char} {keyword : String} {d : Datum}
      (hdepth : depth < maxDepth) (hscan : scan cs = .ok (.abbreviation keyword, more))
      (hread : Reads (depth + 1) (skipAtmosphere more) d rest) :
      Reads depth cs (.list [.name keyword, d]) rest
  | comment {depth : Nat} {cs more more' rest : List Char} {dropped d : Datum}
      (hdepth : depth < maxDepth) (hscan : scan cs = .ok (.comment, more))
      (hdropped : Reads depth (skipAtmosphere more) dropped more')
      (hread : Reads depth (skipAtmosphere more') d rest) : Reads depth cs d rest

inductive ReadsItems :
    Char → Nat → List Datum → List Char → List Datum → Datum → List Char → Prop
  | close {close : Char} {depth : Nat} {seen : List Datum} {cs rest : List Char}
      (hskip : skipAtmosphere cs = close :: rest) :
      ReadsItems close depth seen cs seen.reverse .null rest
  | dot {close c : Char} {depth : Nat} {seen : List Datum} {cs more more' rest : List Char}
      {tail : Datum} (hskip : skipAtmosphere cs = c :: more) (hclose : c ≠ close)
      (hbracket : c ≠ ')' ∧ c ≠ ']') (hdot : isLoneDot c more) (hseen : seen ≠ [])
      (htail : Reads depth (skipAtmosphere more) tail more')
      (hend : skipAtmosphere more' = close :: rest) :
      ReadsItems close depth seen cs seen.reverse tail rest
  | item {close c : Char} {depth : Nat} {seen items : List Datum} {cs more more' rest : List Char}
      {d tail : Datum} (hskip : skipAtmosphere cs = c :: more) (hclose : c ≠ close)
      (hbracket : c ≠ ')' ∧ c ≠ ']') (hdot : isLoneDot c more = false)
      (hread : Reads depth (c :: more) d more')
      (hmore : ReadsItems close depth (d :: seen) more' items tail rest) :
      ReadsItems close depth seen cs items tail rest

end

variable {cs rest : List Char} {d : Datum} {depth : Nat} {close : Char}

theorem eq_of_closeTail {r : Rest cs} (h : closeTail close cs = .ok r) : cs = close :: r.1 := by
  cases cs with
  | nil => cases h
  | cons c cs =>
    simp only [closeTail] at h
    split_ifs at h with hc
    cases h
    rw [beq_iff_eq.mp hc]

theorem closeTail_of_eq (h : cs = close :: rest) : ∃ hr, closeTail close cs = .ok ⟨rest, hr⟩ := by
  subst h
  simp [closeTail]

theorem Reads.depth_lt (h : Reads depth cs d rest) : depth < maxDepth := by
  cases h <;> assumption

theorem Reads.scan (h : Reads depth cs d rest) : ∃ t more, scan cs = .ok (t, more) := by
  cases h <;> exact ⟨_, _, ‹_›⟩

mutual

theorem Reads.readsTo {depth : Nat} {cs rest : List Char} {d : Datum} :
    Reads depth cs d rest → ReadsTo depth cs d rest
  | .constant hdepth hscan => ⟨_, readDatum_constant hdepth hscan⟩
  | .list hdepth hscan hitems =>
    have ⟨_, hread⟩ := hitems.readItems
    readDatum_list hdepth hscan hread
  | .vector hdepth hscan hitems =>
    have ⟨_, hread⟩ := hitems.readItems
    readDatum_vector hdepth hscan hread
  | .abbreviation hdepth hscan hread =>
    have ⟨_, hread⟩ := hread.readsTo
    readDatum_abbreviation hdepth hscan hread
  | .comment hdepth hscan hdropped hread =>
    have ⟨_, hdropped⟩ := hdropped.readsTo
    have ⟨_, hread⟩ := hread.readsTo
    readDatum_comment hdepth hscan hdropped hread

theorem ReadsItems.readItems {close : Char} {depth : Nat} {seen items : List Datum}
    {cs rest : List Char} {tail : Datum} :
    ReadsItems close depth seen cs items tail rest →
      ∃ hr, readItems close depth seen cs = .ok (items, tail, ⟨rest, hr⟩)
  | .close hskip => readItems_close hskip
  | .dot hskip hclose hbracket hdot hseen htail hend =>
    have ⟨_, htail⟩ := htail.readsTo
    have ⟨_, hend⟩ := closeTail_of_eq hend
    readItems_dot hskip hclose hbracket hdot hseen htail hend
  | .item hskip hclose hbracket hdot hread hmore =>
    have ⟨_, hread⟩ := hread.readsTo
    have ⟨_, hmore⟩ := hmore.readItems
    readItems_item hskip hclose hbracket hdot hread hmore

end

mutual

theorem reads_of_readDatum {cs : List Char} {depth : Nat} {d : Datum} {r : Rest cs}
    (h : readDatum depth cs = .ok (d, r)) : Reads depth cs d r.1 := by
  rw [readDatum] at h
  split_ifs at h with hdepth
  have hdepth : depth < maxDepth := Nat.lt_of_not_le hdepth
  split at h
  · cases h
  · rename_i hscan
    cases h
    exact .constant hdepth hscan
  · rename_i close rest hscan
    have hshort := scan_progress hscan
    split at h
    · cases h
    · rename_i hitems
      cases h
      exact .list hdepth hscan (readsItems_of_readItems hitems)
  · rename_i rest hscan
    have hshort := scan_progress hscan
    split at h
    · cases h
    · rename_i hitems
      cases h
      exact .vector hdepth hscan (readsItems_of_readItems hitems)
    · cases h
  · rename_i keyword rest hscan
    have hshort := scan_progress hscan
    have hskip := skipAtmosphere_length rest
    split at h
    · cases h
    · rename_i hread
      cases h
      exact .abbreviation hdepth hscan (reads_of_readDatum hread)
  · rename_i rest hscan
    have hshort := scan_progress hscan
    have hskip := skipAtmosphere_length rest
    split at h
    · cases h
    · rename_i dropped rest' hd hdropped
      have hskip' := skipAtmosphere_length rest'
      split at h
      · cases h
      · rename_i hread
        cases h
        exact .comment hdepth hscan (reads_of_readDatum hdropped) (reads_of_readDatum hread)
termination_by 2 * cs.length

theorem readsItems_of_readItems {cs : List Char} {close : Char} {depth : Nat}
    {seen items : List Datum} {tail : Datum} {r : Rest cs}
    (h : readItems close depth seen cs = .ok (items, tail, r)) :
    ReadsItems close depth seen cs items tail r.1 := by
  have hskip := skipAtmosphere_length cs
  rw [readItems] at h
  split at h
  · cases h
  · rename_i c rest hcs
    have hc : rest.length < cs.length := by
      rw [hcs] at hskip
      exact hskip
    split_ifs at h with hend hbracket hdot hempty
    · cases h
      obtain rfl := beq_iff_eq.mp hend
      exact .close hcs
    · have hne : c ≠ close := by simpa using hend
      have hne' : c ≠ ')' ∧ c ≠ ']' := by simpa using hbracket
      have hseen : seen ≠ [] := by simpa using hempty
      have hskip' := skipAtmosphere_length rest
      split at h
      · cases h
      · rename_i dotted rest' hd hread
        have hskip'' := skipAtmosphere_length rest'
        split at h
        · cases h
        · rename_i htaken
          cases h
          exact .dot hcs hne hne' hdot hseen (reads_of_readDatum hread) (eq_of_closeTail htaken)
    · have hne : c ≠ close := by simpa using hend
      have hne' : c ≠ ')' ∧ c ≠ ']' := by simpa using hbracket
      have hdot' : isLoneDot c rest = false := by simpa using hdot
      split at h
      · cases h
      · rename_i item rest' hd hread
        have hshort : rest'.length < cs.length := Nat.lt_of_lt_of_le hd hc
        split at h
        · cases h
        · rename_i hmore
          cases h
          exact .item hcs hne hne' hdot' (reads_of_readDatum hread)
            (readsItems_of_readItems hmore)
termination_by 2 * cs.length + 1

end

end HygienicScheme.Reader
