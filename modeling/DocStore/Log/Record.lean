/-! Log records. Levels are numbers, of which six have a name. -/

namespace DocStore

structure LogRecord where
  level : Int
  logger : String
  message : String

namespace LogRecord

def debugLevel : Int := 10

def infoLevel : Int := 20

def debug (logger message : String) : LogRecord := ⟨debugLevel, logger, message⟩

def info (logger message : String) : LogRecord := ⟨infoLevel, logger, message⟩

end LogRecord

end DocStore
