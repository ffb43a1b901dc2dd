import LinkPriority.Settings

/-! How a service is set up: where it listens, how much it reads, how long it waits, and the settings of every
search. -/

namespace LinkPriority

/-- The parameters of a service. -/
structure ServiceConfig where
  /-- The address to listen on, `host:port`. -/
  address : String
  /-- A request is what the first so many octets of a connection say. -/
  maxRequestOctets : Nat := 10000
  /-- How many milliseconds a connection may stay silent. -/
  readTimeout : Nat := 5000
  settings : Settings := {}
deriving DecidableEq

/-- What a service cannot be set up with. -/
inductive ConfigFault where
  | noRequestOctets
  | noReadTimeout
  | settings (fault : SettingsFault)
deriving DecidableEq

namespace ConfigFault

/-- The message of a fault, without what caused it. -/
def message : ConfigFault → String
  | noRequestOctets => "max_request_bytes must be at least 1"
  | noReadTimeout => "read_timeout must be nonzero"
  | settings _ => "Invalid search settings"

/-- The messages from a fault down to its cause. -/
def chain : ConfigFault → List String
  | settings fault => [message (settings fault), s!"Invalid settings: {fault.text}"]
  | fault => [fault.message]

end ConfigFault

/-- Accepts the parameters, or says what is wrong first. -/
def ServiceConfig.validate (c : ServiceConfig) : Except ConfigFault Unit :=
  if c.maxRequestOctets = 0 then .error .noRequestOctets
  else if c.readTimeout = 0 then .error .noReadTimeout
  else c.settings.check.mapError .settings

end LinkPriority
