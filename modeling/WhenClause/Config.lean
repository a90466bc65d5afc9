import WhenClause.Group

/-!
# Editor configuration

What a screen may offer, and what new nodes start from. A read-only editor offers no action; each
other flag hides one thing. Flags change only what is shown, never what an edit does.
-/

namespace WhenClause

structure Config where
  readonly : Bool := false
  hideAddCondition : Bool := false
  hideAddGroup : Bool := false
  hideGroupOutline : Bool := false
  groupTemplate : Option Group := none
  conditionTemplate : Option Condition := none
  deriving Inhabited

namespace Config

def showsAddCondition (c : Config) : Bool := !c.readonly && !c.hideAddCondition

def showsAddGroup (c : Config) : Bool := !c.readonly && !c.hideAddGroup

def showsGroupOutline (c : Config) : Bool := !c.hideGroupOutline

end Config

end WhenClause
