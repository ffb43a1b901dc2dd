import LinkPriority.ModelError
import LinkPriority.Settings

/-! Why a search stops without a solution. -/

namespace LinkPriority

/-- A use of the search tree that its shape does not allow. -/
inductive TreeFault where
  | noSuchNode (id : Nat)
  | childless (id : Nat)
  | rootPending
  | bestPending (id : Nat)
deriving DecidableEq

def TreeFault.text : TreeFault → String
  | noSuchNode id => s!"node {id} does not exist"
  | childless id => s!"node {id} has no children to select"
  | rootPending => "root has not been evaluated"
  | bestPending id => s!"best node {id} is not evaluated"

/-- Why a search fails: its settings, the model, or a wrong use of the tree. -/
inductive SearchError (α : Type) where
  | settings (fault : SettingsFault)
  | model (error : ModelError α)
  | internal (fault : TreeFault)
deriving DecidableEq

def SearchError.message {α : Type} [DecimalText α] : SearchError α → String
  | settings fault => s!"Invalid settings: {fault.text}"
  | model error => s!"Model error: {error.message}"
  | internal fault => s!"Internal error: {fault.text}"

/-- Accepts the settings, as the first check of a search. -/
def Settings.validate {α : Type} (s : Settings) : Except (SearchError α) Unit := s.check.mapError .settings

end LinkPriority
