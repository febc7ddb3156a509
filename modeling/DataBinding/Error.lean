/-!
# Errors

Most slips in a template degrade to an empty value. These are the ones that cannot.
-/

namespace DataBinding

/-- What can go wrong when a view is built or used. -/
inductive ViewError where
  /-- An attribute starts like a directive but names none. -/
  | unknownDirective (name : String)
  /-- An event directive without the name of an event. -/
  | missingEventName (name : String)
  /-- An event is bound to a method that does not exist. -/
  | unknownMethod (name : String)
  /-- No node matches the selector of the mount point. -/
  | rootNotFound (selector : String)
  /-- The key was no property of the data when the app was mounted. -/
  | unknownProperty (key : String)
  /-- A method gave up. -/
  | methodFailed (method message : String)
  /-- A JSON text could not be read. -/
  | malformedJson
deriving DecidableEq

namespace ViewError

/-- The message for people. -/
def message : ViewError → String
  | unknownDirective name => "unknown directive `" ++ name ++ "`"
  | missingEventName name => "directive `" ++ name ++ "` requires an event name"
  | unknownMethod name => "method `" ++ name ++ "` is not defined"
  | rootNotFound selector => "no node matches mount selector `" ++ selector ++ "`"
  | unknownProperty key => "`" ++ key ++ "` is not a data property of this app"
  | methodFailed method message => "method `" ++ method ++ "` failed: " ++ message
  | malformedJson => "invalid JSON"

end ViewError

end DataBinding
