import HygienicScheme.Proofs.Discipline.Sessions
import HygienicScheme.Proofs.Reading.Scanning
import HygienicScheme.Proofs.Stamps.Forms
import HygienicScheme.Proofs.Store.Holding

/-!
# Texts bring no stamps

A symbol that is read has no stamp, even if it is written like one. So a text brings nothing but
clean trees to a session.
-/
namespace HygienicScheme

def Datum.Plain (d : Datum) : Prop := ∀ x ∈ d.symbols, x.Plain

instance (d : Datum) : Decidable d.Plain := inferInstanceAs (Decidable (∀ x ∈ d.symbols, x.Plain))

namespace Datum

variable {d car cdr tail : Datum} {items : List Datum}

theorem plain_atom (h : d.symbols = []) : d.Plain := by simp [Plain, h]

theorem plain_name (text : String) : (name text).Plain := by
  simp [Plain, name, symbols, Symbol.Plain, Symbol.user]

theorem plain_pair : (pair car cdr).Plain ↔ car.Plain ∧ cdr.Plain := List.forall_mem_append

theorem mem_allSymbols {x : Symbol} : x ∈ allSymbols items ↔ ∃ d ∈ items, x ∈ d.symbols := by
  induction items with
  | nil => simp [allSymbols]
  | cons d more ih => simp [allSymbols, ih]

theorem plain_vector : (vector items).Plain ↔ ∀ d ∈ items, d.Plain := by
  simp only [Plain, symbols, mem_allSymbols]
  exact ⟨fun h d hd x hx => h x ⟨d, hd, hx⟩, fun h x ⟨d, hd, hx⟩ => h d hd x hx⟩

theorem plain_listWithTail (hitems : ∀ d ∈ items, d.Plain) (htail : tail.Plain) :
    (listWithTail items tail).Plain := by
  induction items with
  | nil => exact htail
  | cons d more ih =>
    obtain ⟨hd, hmore⟩ := List.forall_mem_cons.mp hitems
    exact plain_pair.mpr ⟨hd, ih hmore⟩

end Datum

namespace Reader

variable {cs rest : List Char} {d : Datum} {items : List Datum}

theorem hashAtomOf_plain {token : List Char} (h : hashAtomOf token = .ok d) : d.Plain := by
  unfold hashAtomOf at h
  split at h
  case h_5 =>
    split_ifs at h
    split at h
    split_ifs at h
    split at h <;> cases h
    exact Datum.plain_atom rfl
  all_goals
    cases h
    try exact Datum.plain_atom rfl

theorem characterOf_plain {c : Char} {more : List Char} (h : characterOf c more = .ok d) :
    d.Plain := by
  unfold characterOf at h
  split_ifs at h
  · cases h
    exact Datum.plain_atom rfl
  · split at h <;> cases h <;> exact Datum.plain_atom rfl

theorem atomOf_plain {token : List Char} (h : atomOf token = .ok d) : d.Plain := by
  unfold atomOf at h
  split_ifs at h
  · unfold numberOf at h
    split_ifs at h <;> split at h <;> cases h <;> exact Datum.plain_atom rfl
  · cases h
    exact Datum.plain_name _

theorem scan_plain (h : scan cs = .ok (.constant d, rest)) : d.Plain := by
  unfold scan at h
  split at h
  case h_8 =>
    simp only [bind, Except.bind, pure, Except.pure] at h
    split at h <;> cases h
    exact Datum.plain_atom rfl
  case h_11 => exact characterOf_plain (atomAt_eq_ok h).1
  case h_12 => exact hashAtomOf_plain (atomAt_eq_ok h).1
  case h_13 =>
    split at h
    · exact atomOf_plain (atomAt_eq_ok h).1
    · cases h
  all_goals cases h

mutual

theorem readDatum_plain {cs : List Char} {depth : Nat} {d : Datum} {r : Rest cs}
    (h : readDatum depth cs = .ok (d, r)) : d.Plain := by
  rw [readDatum] at h
  split_ifs at h with hdepth
  split at h
  · cases h
  · rename_i hscan
    cases h
    exact scan_plain hscan
  · rename_i rest hscan
    have hshort := scan_progress hscan
    split at h
    · cases h
    · rename_i hitems
      cases h
      obtain ⟨hplain, htail⟩ := readItems_plain (by simp) hitems
      exact Datum.plain_listWithTail hplain htail
  · rename_i rest hscan
    have hshort := scan_progress hscan
    split at h
    · cases h
    · rename_i hitems
      cases h
      exact Datum.plain_vector.mpr (readItems_plain (by simp) hitems).1
    · cases h
  · rename_i rest hscan
    have hshort := scan_progress hscan
    have hskip := skipAtmosphere_length rest
    split at h
    · cases h
    · rename_i hread
      cases h
      refine Datum.plain_listWithTail ?_ (Datum.plain_atom rfl)
      simpa using ⟨Datum.plain_name _, readDatum_plain hread⟩
  · rename_i rest hscan
    have hshort := scan_progress hscan
    have hskip := skipAtmosphere_length rest
    split at h
    · cases h
    · rename_i rest' hd _
      have hskip' := skipAtmosphere_length rest'
      split at h
      · cases h
      · rename_i hread
        cases h
        exact readDatum_plain hread
termination_by 2 * cs.length

theorem readItems_plain {cs : List Char} {close : Char} {depth : Nat} {seen items : List Datum}
    {tail : Datum} {r : Rest cs} (hseen : ∀ d ∈ seen, d.Plain)
    (h : readItems close depth seen cs = .ok (items, tail, r)) :
    (∀ d ∈ items, d.Plain) ∧ tail.Plain := by
  have hskip := skipAtmosphere_length cs
  rw [readItems] at h
  split at h
  · cases h
  · rename_i c rest hcs
    have hc : rest.length < cs.length := by
      rw [hcs] at hskip
      exact hskip
    split_ifs at h with hclose hbracket hdot hempty
    · cases h
      exact ⟨by simpa using hseen, Datum.plain_atom rfl⟩
    · have hskip' := skipAtmosphere_length rest
      split at h
      · cases h
      · rename_i hread
        split at h <;> cases h
        exact ⟨by simpa using hseen, readDatum_plain hread⟩
    · split at h
      · cases h
      · rename_i item rest' hd hread
        have hshort : rest'.length < cs.length := Nat.lt_of_lt_of_le hd hc
        split at h
        · cases h
        · rename_i hmore
          cases h
          have hitem : (item).Plain := readDatum_plain hread
          exact readItems_plain (List.forall_mem_cons.mpr ⟨hitem, hseen⟩) hmore
termination_by 2 * cs.length + 1

end

theorem readAll_plain {cs : List Char} {items : List Datum} (h : readAll cs = .ok items) :
    ∀ d ∈ items, d.Plain := by
  rw [readAll] at h
  split at h
  · cases h
    simp
  · rename_i c start hcs
    split at h
    · cases h
    · rename_i d rest hd hread
      have hshort : rest.length < cs.length := by
        have hskip := skipAtmosphere_length cs
        rw [hcs] at hskip
        exact Nat.lt_of_lt_of_le hd hskip
      split at h
      · cases h
      · rename_i hmore
        cases h
        exact List.forall_mem_cons.mpr ⟨readDatum_plain hread, readAll_plain hmore⟩
termination_by cs.length

theorem parseProgram_plain {text : String} (h : parseProgram text = .ok items) :
    ∀ d ∈ items, d.Plain := by
  unfold parseProgram at h
  split at h <;> cases h
  exact readAll_plain ‹_›

end Reader

namespace Store.Holds

variable {s : Store} {v : Value} {d : Datum}

theorem exists_mem_zip {vs : List Value} {ds : List Datum} (h : vs.length = ds.length)
    (hv : v ∈ vs) : ∃ d, (v, d) ∈ vs.zip ds := by
  obtain ⟨p, hp, rfl⟩ := List.mem_map.mp ((List.map_fst_zip (Nat.le_of_eq h)).symm ▸ hv)
  exact ⟨p.2, hp⟩

theorem tree (h : s.Holds v d) : s.Tree v := by
  induction h with
  | pair ha _ _ hcar hcdr => exact .pair ha hcar hcdr
  | vector ha hsize _ ih =>
    refine .vector ha fun v hv => ?_
    obtain ⟨d, hvd⟩ := exists_mem_zip hsize hv
    exact ih v d hvd
  | _ => exact .leaf (by simp) (by simp)

theorem clean (h : s.Holds v d) (hd : d.Plain) : s.Clean v := by
  induction h with
  | symbol x => exact clean_symbol.mpr (hd x (by simp [Datum.symbols]))
  | pair ha _ _ hcar hcdr =>
    obtain ⟨hdcar, hdcdr⟩ := Datum.plain_pair.mp hd
    exact clean_pair.mpr ⟨ha, hcar hdcar, hcdr hdcdr⟩
  | vector ha hsize _ ih =>
    refine clean_vector.mpr ⟨ha, fun v hv => ?_⟩
    obtain ⟨d, hvd⟩ := exists_mem_zip hsize hv
    exact ih v d hvd (Datum.plain_vector.mp hd d (List.of_mem_zip hvd).2)
  | _ => exact clean_constant rfl

end Store.Holds

end HygienicScheme
