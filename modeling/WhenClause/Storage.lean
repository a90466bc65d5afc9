import WhenClause.Snapshot.Rule

/-!
# Files

Groups are kept in files as notation and rules as snapshots. What a file system has to say about a
path is either the content found there or that there is nothing, and that is all these functions
are given.
-/

namespace WhenClause

inductive GroupLoadError where
  | notFound
  | notText
  | malformed (input : List Char) (failure : Failure)

inductive RuleLoadError where
  | notFound
  | snapshot (error : Snapshot.Error)

inductive RuleSaveError where
  | folderNotFound

def Group.load (content : Option Bytes) : Except GroupLoadError Group :=
  match content with
  | none => .error .notFound
  | some bytes =>
    match Utf8.decode bytes with
    | .error _ => .error .notText
    | .ok input => (Notation.read input).mapError (.malformed input)

def Rule.load (content : Option Bytes) : Except RuleLoadError Rule :=
  match content with
  | none => .error .notFound
  | some bytes => (Rule.ofBytes bytes).mapError .snapshot

def Rule.save (folderExists : Bool) (r : Rule) : Except RuleSaveError Bytes :=
  if folderExists then .ok r.toBytes else .error .folderNotFound

end WhenClause
