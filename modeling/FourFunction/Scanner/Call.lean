import FourFunction.Scanner

/-! Sequences of calls on a scanner, or on what stands for one, and the answers to them. -/

namespace FourFunction

inductive Call where
  | next
  | pushBack
deriving DecidableEq

inductive Answer where
  | token (token : Token)
  | returned
  | refused (cause : ScanError)

/-- Whether a call has done what it was made for. -/
def Answer.succeeded : Answer → Bool
  | token _ => true
  | returned => true
  | refused _ => false

/-- Performs a call. A refused call changes nothing. -/
def Scanner.perform (s : Scanner) : Call → Answer × Scanner
  | .next => (.token s.next.1, s.next.2)
  | .pushBack =>
    match s.pushBack with
    | .ok back => (.returned, back)
    | .error cause => (.refused cause, s)

namespace Call

/-- A call with its answer and the state that it found. -/
structure Entry (σ : Type) where
  before : σ
  call : Call
  answer : Answer

variable {σ : Type} (perform : σ → Call → Answer × σ)

def after (s : σ) (calls : List Call) : σ :=
  calls.foldl (fun s call => (perform s call).2) s

/-- The record of calls, the first one first. -/
def log (s : σ) : List Call → List (Entry σ)
  | [] => []
  | call :: calls => ⟨s, call, (perform s call).1⟩ :: log (perform s call).2 calls

def answers (s : σ) (calls : List Call) : List Answer :=
  (log perform s calls).map Entry.answer

/-- The most recent of the recorded calls that succeeded. -/
def lastSuccess? (entries : List (Entry σ)) : Option (Entry σ) :=
  (entries.filter fun entry => entry.answer.succeeded).getLast?

end Call

end FourFunction
