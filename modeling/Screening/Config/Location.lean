import Screening.Text

namespace Screening

structure Environment where
  home : Option Text
  configFile : Option Text
  configHome : Option Text
  deriving DecidableEq, Repr

namespace Path

def below (path child : Text) : Text :=
  match child, path.getLast? with
  | 47 :: _, _ => child
  | _, none => child
  | _, some 47 => path ++ child
  | _, some _ => path ++ 47 :: child

end Path

namespace Environment

/-- A path that begins with a tilde lies below the home, from its third byte on, if there is a
home. -/
def resolveTilde (environment : Environment) (path : Text) : Text :=
  match path, environment.home with
  | [126], some home => home
  | 126 :: _ :: rest, some home => Path.below home rest
  | _, _ => path

def nonEmpty (value : Option Text) : Option Text := value.filter fun t => !t.isEmpty

def configFolder (environment : Environment) : Option Text :=
  nonEmpty environment.configHome <|>
    environment.home.map fun home => Path.below home (Text.of ".config")

/-- The path of the configuration file, empty if there is no place for one. -/
def settingsPath (environment : Environment) (requested : Text) : Text :=
  match nonEmpty (some requested) <|> nonEmpty environment.configFile with
  | some path => environment.resolveTilde path
  | none =>
    match environment.configFolder with
    | some folder => Path.below (Path.below folder (Text.of "namesake")) (Text.of "config.toml")
    | none => []

end Environment

end Screening
