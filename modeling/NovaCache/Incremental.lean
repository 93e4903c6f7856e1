import Mathlib.Data.List.Basic

/-! Incremental recognizers over a growing buffer. A verdict other than `incomplete` is
final when no further input changes it, and a recognizer with only final verdicts
yields the same frames however its input is cut into chunks. -/
namespace Incremental
variable {Token Value Next Fault : Type}

inductive Verdict (Value Fault : Type)
  | complete (value : Value) (consumed : Nat)
  | incomplete
  | failed (fault : Fault)

/-- Continues behind a complete part; the other verdicts are passed on. -/
def Verdict.andThen (first : Verdict Value Fault) (next : Value → Nat → Verdict Next Fault) : Verdict Next Fault :=
  match first with
  | .complete value consumed => next value consumed
  | .incomplete => .incomplete
  | .failed fault => .failed fault

def Stable (parse : List Token → Verdict Value Fault) : Prop :=
  ∀ input more, parse input ≠ .incomplete → parse (input ++ more) = parse input

def Progressive (parse : List Token → Verdict Value Fault) : Prop :=
  ∀ input value consumed, parse input = .complete value consumed → 0 < consumed ∧ consumed ≤ input.length

/-- Frames are taken off the buffer, each with the tokens it consumed, until the
recognizer waits for more input or reports a fault. -/
inductive Drains (parse : List Token → Verdict Value Fault) :
    List Token → List (Value × List Token) → Option Fault → List Token → Prop
  | waits (buffer : List Token) (waiting : parse buffer = .incomplete) : Drains parse buffer [] none buffer
  | faults (buffer : List Token) (fault : Fault) (failed : parse buffer = .failed fault) :
      Drains parse buffer [] (some fault) buffer
  | takes (buffer : List Token) (value : Value) (consumed : Nat) (frames : List (Value × List Token))
      (fault : Option Fault) (rest : List Token) (complete : parse buffer = .complete value consumed)
      (further : Drains parse (buffer.drop consumed) frames fault rest) :
      Drains parse buffer ((value,buffer.take consumed)::frames) fault rest

variable {parse : List Token → Verdict Value Fault} {buffer rest : List Token}
  {frames : List (Value × List Token)} {fault : Option Fault}

theorem Drains.flatten (drains : Drains parse buffer frames fault rest) :
    (frames.map Prod.snd).flatten ++ rest = buffer := by
  induction drains with
  | waits buffer waiting => rfl
  | faults buffer fault failed => rfl
  | takes buffer value consumed frames fault rest complete further ih =>
    rw [List.map_cons,List.flatten_cons,List.append_assoc,ih,List.take_append_drop]

theorem Drains.nonempty (drains : Drains parse buffer frames fault rest) (progressive : Progressive parse) :
    ∀ frame ∈ frames, frame.2 ≠ [] := by
  induction drains with
  | waits buffer waiting => simp
  | faults buffer fault failed => simp
  | takes buffer value consumed frames fault rest complete further ih =>
    obtain ⟨positive,inside⟩ := progressive buffer value consumed complete
    refine List.forall_mem_cons.mpr ⟨?_,ih⟩
    rw [← List.length_pos_iff,List.length_take]
    omega

theorem Drains.waiting (drains : Drains parse buffer frames none rest) : parse rest = .incomplete := by
  generalize absent : (none : Option Fault) = fault at drains
  induction drains with
  | waits buffer waiting => exact waiting
  | faults buffer fault failed => cases absent
  | takes buffer value consumed frames fault rest complete further ih => exact ih absent

theorem Drains.append_fault {found : Fault} (drains : Drains parse buffer frames (some found) rest)
    (stable : Stable parse) (progressive : Progressive parse) (more : List Token) :
    Drains parse (buffer ++ more) frames (some found) (rest ++ more) := by
  generalize present : some found = fault at drains
  induction drains with
  | waits buffer waiting => cases present
  | faults buffer fault failed =>
    apply Drains.faults
    rw [stable buffer more (by rw [failed]; nofun),failed]
  | takes buffer value consumed frames fault rest complete further ih =>
    have inside := (progressive buffer value consumed complete).2
    have longer : parse (buffer ++ more) = .complete value consumed := by
      rw [stable buffer more (by rw [complete]; nofun),complete]
    rw [← List.take_append_of_le_length inside]
    refine Drains.takes (buffer ++ more) value consumed frames fault (rest ++ more) longer ?_
    rw [List.drop_append_of_le_length inside]
    exact ih present

/-- Draining early changes nothing: what follows is drained from the rest. -/
theorem Drains.append {more final : List Token} {later : List (Value × List Token)} {outcome : Option Fault}
    (drains : Drains parse buffer frames none rest) (stable : Stable parse) (progressive : Progressive parse)
    (continues : Drains parse (rest ++ more) later outcome final) :
    Drains parse (buffer ++ more) (frames ++ later) outcome final := by
  generalize absent : (none : Option Fault) = fault at drains
  induction drains with
  | waits buffer waiting => exact continues
  | faults buffer fault failed => cases absent
  | takes buffer value consumed frames fault rest complete further ih =>
    have inside := (progressive buffer value consumed complete).2
    have longer : parse (buffer ++ more) = .complete value consumed := by
      rw [stable buffer more (by rw [complete]; nofun),complete]
    rw [← List.take_append_of_le_length inside,List.cons_append]
    refine Drains.takes (buffer ++ more) value consumed (frames ++ later) outcome final longer ?_
    rw [List.drop_append_of_le_length inside]
    exact ih continues absent

theorem Drains.unique {frames' : List (Value × List Token)} {fault' : Option Fault} {rest' : List Token}
    (one : Drains parse buffer frames fault rest) (two : Drains parse buffer frames' fault' rest') :
    frames = frames' ∧ fault = fault' ∧ rest = rest' := by
  induction one generalizing frames' with
  | waits buffer waiting =>
    cases two with
    | waits => exact ⟨rfl,rfl,rfl⟩
    | faults _ fault failed => rw [waiting] at failed; cases failed
    | takes _ _ _ _ _ _ complete => rw [waiting] at complete; cases complete
  | faults buffer fault failed =>
    cases two with
    | waits _ waiting => rw [failed] at waiting; cases waiting
    | faults _ fault again =>
      rw [failed] at again
      cases again
      exact ⟨rfl,rfl,rfl⟩
    | takes _ _ _ _ _ _ complete => rw [failed] at complete; cases complete
  | takes buffer value consumed frames fault rest complete further ih =>
    cases two with
    | waits _ waiting => rw [complete] at waiting; cases waiting
    | faults _ fault failed => rw [complete] at failed; cases failed
    | takes _ _ _ others _ _ again more =>
      rw [complete] at again
      cases again
      obtain ⟨rfl,rfl,rfl⟩ := ih more
      exact ⟨rfl,rfl,rfl⟩

/-- The buffer is drained after every chunk until a fault stops the session. -/
inductive Session (parse : List Token → Verdict Value Fault) :
    List Token → List (List Token) → List (Value × List Token) → Option Fault → List Token → Prop
  | ends (buffer : List Token) : Session parse buffer [] [] none buffer
  | stops (buffer chunk rest : List Token) (chunks : List (List Token)) (frames : List (Value × List Token))
      (fault : Fault) (drains : Drains parse (buffer ++ chunk) frames (some fault) rest) :
      Session parse buffer (chunk::chunks) frames (some fault) rest
  | continues (buffer chunk rest final : List Token) (chunks : List (List Token))
      (frames later : List (Value × List Token)) (fault : Option Fault)
      (drains : Drains parse (buffer ++ chunk) frames none rest)
      (further : Session parse rest chunks later fault final) :
      Session parse buffer (chunk::chunks) (frames ++ later) fault final

/-- A session yields what draining the whole input at once yields. -/
theorem Session.whole {chunks : List (List Token)} (session : Session parse buffer chunks frames fault rest)
    (stable : Stable parse) (progressive : Progressive parse) (waiting : parse buffer = .incomplete) :
    ∃ final, Drains parse (buffer ++ chunks.flatten) frames fault final ∧ (fault = none → final = rest) := by
  induction session with
  | ends buffer => exact ⟨buffer,by simpa using Drains.waits buffer waiting,fun _ => rfl⟩
  | stops buffer chunk rest chunks frames fault drains =>
    rw [List.flatten_cons,← List.append_assoc]
    exact ⟨_,drains.append_fault stable progressive chunks.flatten,nofun⟩
  | continues buffer chunk rest final chunks frames later fault drains further ih =>
    obtain ⟨last,whole,same⟩ := ih drains.waiting
    rw [List.flatten_cons,← List.append_assoc]
    exact ⟨last,drains.append stable progressive whole,same⟩

end Incremental
