import CoinWire.Stream

/-!
# Settings

A framer can be set up from a network, a way of parsing and the choice of a checksum. What is
left out takes its default.
-/

namespace CoinWire

structure Settings where
  network : Network
  parse : ParseConfig
  checksum : Bool
deriving DecidableEq

namespace Settings

def defaults : Settings :=
  ⟨.paycoin, ParseConfig.eager, false⟩

end Settings

namespace Framer

def withParse (parse : ParseConfig) (framer : Framer) : Framer :=
  { framer with parse }

def withChecksum (checksum : Bool) (framer : Framer) : Framer :=
  { framer with checksum }

def ofSettings (settings : Settings) : Framer :=
  ((new settings.network.params).withParse settings.parse).withChecksum settings.checksum

end Framer

end CoinWire
