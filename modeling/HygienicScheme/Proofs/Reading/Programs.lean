import HygienicScheme.Interpreter
import HygienicScheme.Proofs.Reading.Appending

/-!
# Programs in two parts

A program may be cut behind any of its forms. If the first part can be read, both parts together
are read, or not, as the second part is, and evaluating them together is evaluating one after the
other.
-/
namespace HygienicScheme

namespace Reader

variable {cs cs' start : List Char} {c : Char} {d : Datum} {xs ys : List Datum} {f : Fault}
  {text a b : String} {p : ParseError}

theorem readAll_eq (cs : List Char) : readAll cs =
    match skipAtmosphere cs with
    | [] => .ok []
    | c :: start =>
      match readDatum 0 (c :: start) with
      | .error f => .error f
      | .ok (d, r) => (readAll r.1).map (d :: ·) := by
  rw [readAll]
  split
  case h_1 hskip => rw [hskip]
  case h_2 c start hskip =>
    simp only [hskip]
    cases readDatum 0 (c :: start) with
    | error f => rfl
    | ok read =>
      dsimp only
      cases readAll read.2.1 <;> rfl

theorem readAll_nil (h : skipAtmosphere cs = []) : readAll cs = .ok [] := by
  rw [readAll_eq, h]

theorem readAll_cons {r : Rest (c :: start)} (h : skipAtmosphere cs = c :: start)
    (hd : readDatum 0 (c :: start) = .ok (d, r)) :
    readAll cs = (readAll r.1).map (d :: ·) := by
  simp only [readAll_eq cs, h, hd]

theorem readAll_fault (h : skipAtmosphere cs = c :: start)
    (hd : readDatum 0 (c :: start) = .error f) : readAll cs = .error f := by
  simp only [readAll_eq cs, h, hd]

theorem readAll_congr (h : skipAtmosphere cs = skipAtmosphere cs') : readAll cs = readAll cs' := by
  rw [readAll_eq cs, readAll_eq cs', h]

/-- What has been read began with a datum, unless there was nothing to read. -/
theorem readAll_ok (h : readAll cs = .ok xs) :
    (xs = [] ∧ skipAtmosphere cs = []) ∨
      ∃ (c : Char) (start : List Char) (d : Datum) (r : Rest (c :: start)) (ds : List Datum),
        skipAtmosphere cs = c :: start ∧ readDatum 0 (c :: start) = .ok (d, r) ∧
          readAll r.1 = .ok ds ∧ xs = d :: ds := by
  cases hskip : skipAtmosphere cs with
  | nil =>
    cases h.symm.trans (readAll_nil hskip)
    exact .inl ⟨rfl, rfl⟩
  | cons c start =>
    cases hd : readDatum 0 (c :: start) with
    | error f => cases h.symm.trans (readAll_fault hskip hd)
    | ok read =>
      obtain ⟨d, r⟩ := read
      have hall := h.symm.trans (readAll_cons hskip hd)
      cases hmore : readAll r.1 with
      | error f =>
        rw [hmore] at hall
        cases hall
      | ok ds =>
        rw [hmore] at hall
        cases hall
        exact .inr ⟨c, start, d, r, ds, rfl, hd, hmore, rfl⟩

theorem skip_of_readAll_nil (h : readAll cs = .ok []) : skipAtmosphere cs = [] := by
  rcases readAll_ok h with ⟨-, hskip⟩ | ⟨_, _, _, _, _, -, -, -, hcons⟩
  · exact hskip
  · cases hcons

theorem readAll_append {cs : List Char} {xs : List Datum} (h : readAll cs = .ok xs)
    (b : List Char) : readAll (cs ++ '\n' :: b) = (readAll b).map (xs ++ ·) := by
  rcases readAll_ok h with ⟨rfl, hskip⟩ | ⟨c, start, d, r, ds, hskip, hd, hmore, rfl⟩
  · rw [readAll_congr (skipAtmosphere_append_nil hskip b)]
    cases readAll b <;> rfl
  · have hshort : r.1.length < cs.length := by
      have hlength := skipAtmosphere_length cs
      rw [hskip] at hlength
      exact Nat.lt_of_lt_of_le r.2 hlength
    have hread := reads_of_readDatum hd
    obtain ⟨t, more, hscan⟩ := hread.scan
    have hskipped := skipAtmosphere_append_scan (x := '\n') rfl (hskip ▸ hscan) b
    rw [hskip, List.cons_append] at hskipped
    obtain ⟨_, hdatum⟩ := (hread.append (x := '\n') rfl b).readsTo
    rw [readAll_cons hskipped hdatum, readAll_append hmore b]
    cases readAll b <;> rfl
termination_by cs.length

theorem parseProgram_ok_iff : parseProgram text = .ok xs ↔ readAll text.toList = .ok xs := by
  unfold parseProgram
  cases readAll text.toList with
  | error f => exact ⟨nofun, nofun⟩
  | ok ds => simp only [Except.ok.injEq]

theorem parseDatum_iff : parseDatum text = .ok d ↔ parseProgram text = .ok [d] := by
  rw [parseProgram_ok_iff]
  unfold parseDatum
  dsimp only
  cases hskip : skipAtmosphere text.toList with
  | nil =>
    rw [readAll_nil hskip]
    exact ⟨nofun, nofun⟩
  | cons c start =>
    dsimp only
    cases hd : readDatum 0 (c :: start) with
    | error f =>
      rw [readAll_fault hskip hd]
      exact ⟨nofun, nofun⟩
    | ok read =>
      obtain ⟨e, r⟩ := read
      rw [readAll_cons hskip hd]
      dsimp only
      cases hrest : skipAtmosphere r.1 with
      | nil =>
        rw [readAll_nil hrest]
        simp [Except.map]
      | cons x more =>
        refine ⟨nofun, fun hall => ?_⟩
        cases hmore : readAll r.1 with
        | error f =>
          rw [hmore] at hall
          cases hall
        | ok ds =>
          rw [hmore] at hall
          cases hall
          cases hrest.symm.trans (skip_of_readAll_nil hmore)

theorem parseProgram_append (ha : parseProgram a = .ok xs) (b : String) :
    (∀ ys, parseProgram b = .ok ys → parseProgram (a ++ "\n" ++ b) = .ok (xs ++ ys)) ∧
      ∀ p, parseProgram b = .error p → ∃ p', parseProgram (a ++ "\n" ++ b) = .error p' := by
  have htext : (a ++ "\n" ++ b).toList = a.toList ++ '\n' :: b.toList := by
    simp [String.toList_append]
  have hread := readAll_append (parseProgram_ok_iff.mp ha) b.toList
  rw [← htext] at hread
  constructor
  · intro ys hb
    rw [parseProgram_ok_iff, hread, parseProgram_ok_iff.mp hb]
    rfl
  · intro p hb
    cases hboth : parseProgram (a ++ "\n" ++ b) with
    | error p' => exact ⟨p', rfl⟩
    | ok ds =>
      rw [parseProgram_ok_iff, hread] at hboth
      cases hall : readAll b.toList with
      | error f =>
        rw [hall] at hboth
        cases hboth
      | ok ys => cases hb.symm.trans (parseProgram_ok_iff.mpr hall)

end Reader

namespace Context

variable {c : Context} {xs ys : List Datum} {s : Store} {v : Value}

theorem evaluateAll_last (h : ys ≠ []) (last last' : Outcome) :
    c.evaluateAll last ys s = c.evaluateAll last' ys s := by
  cases ys with
  | nil => exact absurd rfl h
  | cons d more => rfl

theorem evaluateAll_append (hys : ys ≠ []) :
    c.evaluateAll (.value v) (xs ++ ys) s =
      match c.evaluateAll (.value v) xs s with
      | (.value _, t) => c.evaluateAll (.value .unspecified) ys t
      | failure => failure := by
  induction xs generalizing v s with
  | nil => exact evaluateAll_last hys _ _
  | cons d more ih =>
    rw [List.cons_append, evaluateAll_cons, evaluateAll_cons]
    cases hfirst : c.expandAndEvaluate (d.place s).1 (d.place s).2 with
    | mk first t =>
      cases first with
      | value w => exact ih
      | _ => rfl

end Context

/-- How a program may be cut behind any of its forms. -/
structure CutsBetweenForms : Prop where
  read : ∀ a xs, Reader.parseProgram a = .ok xs → ∀ b ys, Reader.parseProgram b = .ok ys →
    Reader.parseProgram (a ++ "\n" ++ b) = .ok (xs ++ ys)
  unread : ∀ a xs, Reader.parseProgram a = .ok xs → ∀ b p, Reader.parseProgram b = .error p →
    ∃ p', Reader.parseProgram (a ++ "\n" ++ b) = .error p'
  /-- Both parts together have the result and leave the session of one after the other. -/
  evaluated : ∀ (i : Interpreter) a xs b ys, Reader.parseProgram a = .ok xs →
    Reader.parseProgram b = .ok ys → ys ≠ [] →
      i.evalText (a ++ "\n" ++ b) =
        match i.evalText a with
        | (.value _, i') => i'.evalText b
        | failure => failure
  /-- A text of one datum is a program of one form. -/
  single : ∀ text d, Reader.parseDatum text = .ok d ↔ Reader.parseProgram text = .ok [d]

theorem cuts_between_forms : CutsBetweenForms := by
  constructor
  · exact fun a xs ha b => (Reader.parseProgram_append ha b).1
  · exact fun a xs ha b => (Reader.parseProgram_append ha b).2
  · intro i a xs b ys ha hb hys
    have hboth := (Reader.parseProgram_append ha b).1 ys hb
    obtain ⟨c, s⟩ := i
    simp only [Interpreter.evalText, ha, hboth, Context.evaluateAll_append hys]
    cases hfirst : c.evaluateAll (.value .unspecified) xs s with
    | mk first t =>
      cases first with
      | value v => simp only [hb]
      | _ => rfl
  · exact fun text d => Reader.parseDatum_iff

end HygienicScheme
