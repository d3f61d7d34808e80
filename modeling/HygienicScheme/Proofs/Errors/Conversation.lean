import HygienicScheme.Interpreter
import HygienicScheme.Proofs.Depth.Balance
import HygienicScheme.Repl

/-!
# The lines of a conversation

Lines that cannot be read yet are kept and handed over again with the next line. Since nothing is
evaluated unless all of the text can be read, and what has been evaluated is not kept, every line
belongs to at most one text that is evaluated.

No step of the machine makes a parse error and no expansion ends in one. So a session reports one
only for a text that cannot be read, and then nothing has been evaluated.
-/
namespace HygienicScheme

/-! ### Where parse errors come from -/

namespace Machine

variable {c : Context} {m : Machine} {p : ParseError}

def Parsed (m : Machine) : Prop := ∀ p, m.task ≠ .error (.parse p)

theorem Parsed.step (h : m.Parsed) : (m.step c).Parsed := by
  intro p herror
  rcases error_of_step herror with hbefore | hordinary | ⟨hlimit, -⟩
  · exact h p hbefore
  · exact hordinary
  · cases hlimit

theorem Parsed.iterate (h : m.Parsed) (n : Nat) : ((Machine.step c)^[n] m).Parsed := by
  induction n generalizing m with
  | zero => exact h
  | succ n ih => exact ih h.step

theorem Parsed.outcome (h : m.Parsed) : m.outcome? ≠ some (.error (.parse p)) := by
  intro houtcome
  unfold outcome? at houtcome
  split at houtcome
  case h_1 => cases houtcome
  case h_2 htask _ =>
    cases houtcome
    exact h p htask
  case h_3 => cases houtcome
  case h_4 => cases houtcome

theorem Parsed.run (h : m.Parsed) (n : Nat) : (m.run c n).1 ≠ .error (.parse p) := by
  induction n generalizing m with
  | zero => exact nofun
  | succ n ih =>
    unfold Machine.run
    cases houtcome : m.outcome? with
    | some outcome =>
      have hne : m.outcome? ≠ some (.error (.parse p)) := h.outcome
      rw [houtcome] at hne
      exact fun heq => hne (congrArg some heq)
    | none => exact ih h.step

end Machine

namespace Context

variable {c : Context} {form : Value} {s : Store} {last : Outcome} {p : ParseError}

theorem evaluate_parsed : (c.evaluate form s).1 ≠ .error (.parse p) := by
  have hstart : (Machine.start form c.global s).Parsed := nofun
  exact hstart.run _

theorem expandAndEvaluate_parsed : (c.expandAndEvaluate form s).1 ≠ .error (.parse p) := by
  unfold expandAndEvaluate
  cases hexpand : Expansion.expandToplevel c.global form s with
  | ok form s => exact evaluate_parsed
  | error e s₁ =>
    have hordinary := Ordinary.expandToplevel c.global form s e s₁ hexpand
    intro h
    cases h
    exact hordinary

theorem evaluateAll_parsed {forms : List Datum} (h : last ≠ .error (.parse p)) :
    (c.evaluateAll last forms s).1 ≠ .error (.parse p) := by
  induction forms generalizing last s with
  | nil => exact h
  | cons d more ih =>
    rw [evaluateAll_cons]
    have hfirst : (c.expandAndEvaluate (d.place s).1 (d.place s).2).1 ≠ .error (.parse p) :=
      expandAndEvaluate_parsed
    cases hresult : c.expandAndEvaluate (d.place s).1 (d.place s).2 with
    | mk first t =>
      rw [hresult] at hfirst
      cases first with
      | value v => exact ih nofun
      | _ => exact hfirst

end Context

namespace Interpreter

variable {i : Interpreter} {text : String} {p : ParseError}

theorem evalText_of_error (h : Reader.parseProgram text = .error p) :
    i.evalText text = (.error (.parse p), i) := by
  simp only [evalText, h]

theorem evalText_parsed {forms : List Datum} (h : Reader.parseProgram text = .ok forms) :
    (i.evalText text).1 ≠ .error (.parse p) := by
  simp only [evalText, h]
  exact Context.evaluateAll_parsed nofun

/-- A text is reported as one that cannot be read exactly if it cannot. -/
theorem evalText_parse_iff :
    (i.evalText text).1 = .error (.parse p) ↔ Reader.parseProgram text = .error p := by
  cases hparse : Reader.parseProgram text with
  | ok forms => exact ⟨fun h => absurd h (evalText_parsed hparse), nofun⟩
  | error q =>
    rw [evalText_of_error hparse]
    simp

theorem expand_parsed {form : Value} : (i.expand form).1 ≠ .error (.parse p) := by
  unfold expand perform
  cases hexpand : Expansion.expandToplevel i.context.global form i.store with
  | ok form s =>
    simp only [hexpand]
    exact nofun
  | error e s =>
    have hordinary := Ordinary.expandToplevel i.context.global form i.store e s hexpand
    simp only [hexpand]
    rintro ⟨⟩
    exact hordinary

end Interpreter

/-! ### Lines that are read together -/

namespace Repl

variable {r r' : Repl} {i : Interpreter} {line : String} {lines opened : List String}
  {groups : List (List String)}

def after (r : Repl) : List String → Next
  | [] => .more r
  | line :: more =>
    match (r.feed line).2 with
    | .more r => after r more
    | .done ending => .done ending

def typed? (line : String) : Option String := (Text.typedLine? line.toList).map String.ofList

def text (lines : List String) : String := String.join (lines.map (· ++ "\n"))

def answered (i : Interpreter) (lines : List String) : Interpreter :=
  (i.evalText (text lines)).2.takeOutput.2

/-- How a conversation has come here: some groups of lines have been evaluated, one after the other,
and the lines that are open have not. -/
structure Progress (i : Interpreter) (lines : List String) (groups : List (List String))
    (opened : List String) (r : Repl) : Prop where
  /-- No line belongs to two groups, or to a group and the open lines. -/
  once : (groups.flatten ++ opened).Sublist (lines.filterMap typed?)
  read : ∀ group ∈ groups, ∃ forms, Reader.parseProgram (text group) = .ok forms
  pending : r.pending = text opened
  interpreter : r.interpreter = groups.foldl answered i

theorem text_concat (lines : List String) (line : String) :
    text (lines ++ [line]) = text lines ++ line ++ "\n" := by
  simp [text, String.join_append, String.append_assoc]

theorem evaluate_unread {p : ParseError} {text : String}
    (h : Reader.parseProgram text = .error p) :
    ∃ reply, evaluate i text = (reply, .more ⟨i, if p.kind = .incomplete then text else ""⟩) := by
  simp only [evaluate, Interpreter.evalText_of_error h]
  split
  · exact ⟨_, rfl⟩
  · exact ⟨_, rfl⟩

theorem evaluate_read {forms : List Datum} {text : String}
    (h : Reader.parseProgram text = .ok forms) (hmore : (evaluate i text).2 = .more r) :
    r = ⟨(i.evalText text).2.takeOutput.2, ""⟩ := by
  -- The reply is decided by the error alone, so an error in evaluating must be no parse error.
  have hparsed : ∀ p, (i.evalText text).1 ≠ .error (.parse p) := fun _ =>
    Interpreter.evalText_parsed h
  revert hmore hparsed
  unfold evaluate
  generalize i.evalText text = answer
  obtain ⟨outcome, i'⟩ := answer
  intro hmore hparsed
  split at hmore
  case h_1 p _ heq => exact absurd (congrArg Prod.fst heq) (hparsed p)
  case h_2 heq =>
    cases heq
    dsimp only at hmore
    cases hending : ending? outcome with
    | some ending =>
      rw [hending] at hmore
      cases hmore
    | none =>
      rw [hending] at hmore
      cases hmore
      rfl

/-- Nothing is evaluated in reply to a line, or all that is open and the line itself. -/
theorem feed_cases (r : Repl) (line : String) :
    (∃ reply, r.feed line = (reply, .more r) ∨ ∃ ending, r.feed line = (reply, .done ending)) ∨
      ∃ typed, typed? line = some typed ∧
        r.feed line = evaluate r.interpreter (r.pending ++ typed ++ "\n") := by
  unfold feed typed?
  cases Text.typedLine? line.toList with
  | none => exact .inl ⟨_, .inr ⟨_, rfl⟩⟩
  | some cs =>
    dsimp only [Option.map_some]
    unfold reply
    split
    case isTrue hempty =>
      split
      · exact .inl ⟨_, .inl rfl⟩
      · exact .inl ⟨_, .inl rfl⟩
      · exact .inl ⟨_, .inl rfl⟩
      · exact .inl ⟨_, .inr ⟨_, rfl⟩⟩
      · exact .inl ⟨_, .inr ⟨_, rfl⟩⟩
      · refine .inr ⟨_, rfl, ?_⟩
        rw [String.isEmpty_iff.mp hempty, String.empty_append]
    case isFalse => exact .inr ⟨_, rfl, rfl⟩

namespace Progress

theorem start (i : Interpreter) : Progress i [] [] [] ⟨i, ""⟩ :=
  ⟨.slnil, nofun, rfl, rfl⟩

theorem skip (h : Progress i lines groups opened r) (line : String) :
    Progress i (lines ++ [line]) groups opened r := by
  refine ⟨?_, h.read, h.pending, h.interpreter⟩
  rw [List.filterMap_append]
  exact h.once.trans (List.sublist_append_left _ _)

theorem extend (h : Progress i lines groups opened r) {typed : String}
    (htyped : typed? line = some typed) : Progress i (lines ++ [line]) groups (opened ++ [typed])
      ⟨r.interpreter, r.pending ++ typed ++ "\n"⟩ := by
  refine ⟨?_, h.read, ?_, h.interpreter⟩
  · rw [List.filterMap_append, ← List.append_assoc]
    refine h.once.append ?_
    simp [htyped]
  · rw [text_concat, ← h.pending]

theorem close (h : Progress i lines groups opened r) {forms : List Datum}
    (hread : Reader.parseProgram r.pending = .ok forms) :
    Progress i lines (groups ++ [opened]) []
      ⟨(r.interpreter.evalText r.pending).2.takeOutput.2, ""⟩ := by
  refine ⟨?_, ?_, rfl, ?_⟩
  · simpa using h.once
  · intro group hgroup
    rcases List.mem_append.mp hgroup with hbefore | hlast
    · exact h.read group hbefore
    · obtain rfl := List.mem_singleton.mp hlast
      exact ⟨forms, h.pending ▸ hread⟩
  · rw [List.foldl_append, ← h.interpreter, h.pending]
    rfl

theorem drop (h : Progress i lines groups opened r) :
    Progress i lines groups [] ⟨r.interpreter, ""⟩ := by
  refine ⟨?_, h.read, rfl, h.interpreter⟩
  rw [List.append_nil]
  exact (List.sublist_append_left _ _).trans h.once

theorem feed (h : Progress i lines groups opened r) (hfeed : (r.feed line).2 = .more r') :
    ∃ groups opened, Progress i (lines ++ [line]) groups opened r' := by
  rcases feed_cases r line with ⟨reply, hmore | ⟨ending, hdone⟩⟩ | ⟨typed, htyped, heval⟩
  · rw [hmore] at hfeed
    cases hfeed
    exact ⟨groups, opened, h.skip line⟩
  · rw [hdone] at hfeed
    cases hfeed
  · have hextended := h.extend htyped
    rw [heval] at hfeed
    cases hparse : Reader.parseProgram (r.pending ++ typed ++ "\n") with
    | ok forms =>
      obtain rfl := evaluate_read hparse hfeed
      exact ⟨_, _, hextended.close hparse⟩
    | error p =>
      obtain ⟨reply, hunread⟩ := evaluate_unread (i := r.interpreter) hparse
      rw [hunread] at hfeed
      cases hfeed
      by_cases hkind : p.kind = .incomplete
      · rw [if_pos hkind]
        exact ⟨_, _, hextended⟩
      · rw [if_neg hkind]
        exact ⟨_, _, hextended.drop⟩

theorem after {before more : List String} (h : Progress i before groups opened r)
    (hafter : r.after more = .more r') :
    ∃ groups opened, Progress i (before ++ more) groups opened r' := by
  induction more generalizing r before groups opened with
  | nil =>
    cases hafter
    exact ⟨groups, opened, by rwa [List.append_nil]⟩
  | cons line more ih =>
    unfold Repl.after at hafter
    cases hnext : (r.feed line).2 with
    | done _ =>
      rw [hnext] at hafter
      cases hafter
    | more r₁ =>
      rw [hnext] at hafter
      obtain ⟨groups₁, opened₁, h₁⟩ := h.feed hnext
      obtain ⟨groups₂, opened₂, h₂⟩ := ih h₁ hafter
      exact ⟨groups₂, opened₂, by rwa [List.append_assoc] at h₂⟩

end Progress

theorem after_done {ending : Ending} (h : r.after lines = .done ending) :
    ∃ before line more r', lines = before ++ line :: more ∧ r.after before = .more r' ∧
      (r'.feed line).2 = .done ending := by
  induction lines generalizing r with
  | nil => cases h
  | cons line more ih =>
    unfold Repl.after at h
    cases hnext : (r.feed line).2 with
    | done _ =>
      rw [hnext] at h
      cases h
      exact ⟨[], line, more, r, rfl, rfl, hnext⟩
    | more r₁ =>
      rw [hnext] at h
      obtain ⟨before, last, rest, r₂, rfl, hbefore, hlast⟩ := ih h
      refine ⟨line :: before, last, rest, r₂, rfl, ?_, hlast⟩
      unfold Repl.after
      rw [hnext]
      exact hbefore

end Repl

/-- Texts are read before anything in them is evaluated, and parse errors are about nothing else. -/
structure ReadsFirst : Prop where
  /-- A parse error is reported for the texts that cannot be read and for no others. -/
  reported : ∀ (i : Interpreter) text p,
    (i.evalText text).1 = .error (.parse p) ↔ Reader.parseProgram text = .error p
  /-- A text that cannot be read leaves the session as it is. -/
  unchanged : ∀ (i : Interpreter) text p,
    Reader.parseProgram text = .error p → (i.evalText text).2 = i
  expanded : ∀ (i : Interpreter) form p, (i.expand form).1 ≠ .error (.parse p)
  evaluated : ∀ (i : Interpreter) form p,
    (i.evalForm form).1 ≠ .error (.parse p) ∧ (i.evalRaw form).1 ≠ .error (.parse p)
  /-- No step of an evaluation makes a parse error. -/
  stepped : ∀ c (m : Machine), m.Parsed → ∀ n, ((Machine.step c)^[n] m).Parsed
  /-- The session of a conversation is what evaluating some groups of its lines has made of it, one
  group after the other, and every line belongs to at most one of them. -/
  conversed : ∀ i lines r, (⟨i, ""⟩ : Repl).after lines = .more r →
    ∃ groups opened, Repl.Progress i lines groups opened r
  /-- So it is up to the line that ends the conversation, which is the last one that is read. -/
  finished : ∀ i lines ending, (⟨i, ""⟩ : Repl).after lines = .done ending →
    ∃ before line more r, lines = before ++ line :: more ∧
      (⟨i, ""⟩ : Repl).after before = .more r ∧ (r.feed line).2 = .done ending

theorem reads_first : ReadsFirst := by
  constructor
  · exact fun i text p => Interpreter.evalText_parse_iff
  · intro i text p h
    rw [Interpreter.evalText_of_error h]
  · exact fun i form p => Interpreter.expand_parsed
  · exact fun i form p => ⟨Context.expandAndEvaluate_parsed, Context.evaluate_parsed⟩
  · exact fun c m hm n => hm.iterate n
  · intro i lines r hafter
    exact (Repl.Progress.start i).after hafter
  · exact fun i lines ending h => Repl.after_done h

end HygienicScheme
