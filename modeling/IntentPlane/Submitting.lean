import IntentPlane.Program

/-!
# Submitting over candidate links

An intent is submitted over one candidate link after another until the framework takes it.
-/

namespace IntentPlane

/-- An accepted submission: the link and its intent, the answer, and the links not tried. -/
structure Acceptance where
  link : CandidateLink
  intent : Intent
  submission : Submission
  untried : List CandidateLink

/-- Submits what `build?` makes of the links in order, up to the first acceptance, waiting for at
most `limit` milliseconds each time. Links that make no intent are passed over. If none is accepted,
the reason is that of the last refusal, or `reason` if nothing was refused. -/
def submitFirst (limit : UInt64) (build? : CandidateLink → Option Intent) (reason : String) :
    List CandidateLink → Program (Except String Acceptance)
  | [] => return .error reason
  | link :: untried =>
    match build? link with
    | none => submitFirst limit build? reason untried
    | some intent => do
      match ← .submit limit intent with
      | .ok submission => return .ok ⟨link, intent, submission, untried⟩
      | .error e => submitFirst limit build? e.message untried

end IntentPlane
