import Screening.Replacement

namespace Screening.Replacer

/-- Legal forms written out, with their abbreviations. -/
def legalFormRows : List (String × String) := [
  ("limited liability company", "llc"), ("limited liability partnership", "llp"),
  ("limited partnership", "lp"), ("public limited company", "plc"),
  ("private limited company", "ltd"), ("limited", "ltd"), ("incorporated", "inc"),
  ("corporation", "corp"), ("company", "co"), ("general partnership", "gp"),
  ("joint stock company", "jsc"), ("open joint stock company", "ojsc"),
  ("closed joint stock company", "cjsc"), ("public joint stock company", "pjsc"),
  ("aktsionernoe obshchestvo", "ao"), ("otkrytoe aktsionernoe obshchestvo", "oao"),
  ("zakrytoe aktsionernoe obshchestvo", "zao"), ("publichnoe aktsionernoe obshchestvo", "pao"),
  ("obshchestvo s ogranichennoy otvetstvennostyu", "ooo"),
  ("obshchestvo s ogranichennoi otvetstvennostiu", "ooo"),
  ("gesellschaft mit beschrankter haftung", "gmbh"), ("aktiengesellschaft", "ag"),
  ("kommanditgesellschaft", "kg"), ("societe anonyme", "sa"), ("sociedad anonima", "sa"),
  ("societe a responsabilite limitee", "sarl"), ("sociedad de responsabilidad limitada", "srl"),
  ("societa per azioni", "spa"), ("societa a responsabilita limitata", "srl"),
  ("comandita por acciones", "sca"), ("besloten vennootschap", "bv"),
  ("naamloze vennootschap", "nv"), ("aktiebolag", "ab"), ("aksjeselskap", "as"),
  ("andelslag", "anl"), ("proprietary limited", "pty ltd"), ("free zone establishment", "fze"),
  ("free zone company", "fzco"), ("limited liability", "ll")]

def legalForms : Replacer := ofStrings legalFormRows

/-- Forms of address that are no part of a name. -/
def honorificRows : List (String × String) := [
  ("mr", ""), ("mrs", ""), ("ms", ""), ("miss", ""), ("mister", ""), ("madam", ""),
  ("madame", ""), ("monsieur", ""), ("dr", ""), ("doctor", ""), ("prof", ""), ("professor", ""),
  ("sir", ""), ("dame", ""), ("lady", ""), ("lord", ""), ("sheikh", ""), ("shaikh", ""),
  ("haji", ""), ("hajji", ""), ("hadji", ""), ("mullah", ""), ("imam", ""), ("herr", ""),
  ("frau", ""), ("senor", ""), ("senora", "")]

def honorifics : Replacer := ofStrings honorificRows

def streetTermRows : List (String × String) := [
  ("street", "st"), ("strasse", "str"), ("avenue", "ave"), ("road", "rd"), ("boulevard", "blvd"),
  ("drive", "dr"), ("lane", "ln"), ("square", "sq"), ("place", "pl"), ("court", "ct"),
  ("highway", "hwy"), ("building", "bldg"), ("apartment", "apt"), ("suite", "ste"),
  ("floor", "fl"), ("office", "ofc"), ("post office box", "po box"), ("p o box", "po box"),
  ("north", "n"), ("south", "s"), ("east", "e"), ("west", "w"), ("ulitsa", "ul"),
  ("prospekt", "pr"), ("district", "dist"), ("province", "prov"), ("republic", "rep")]

def streetTerms : Replacer := ofStrings streetTermRows

def ordinalRows : List (String × String) := [
  ("first", "1"), ("1st", "1"), ("second", "2"), ("2nd", "2"), ("third", "3"), ("3rd", "3"),
  ("fourth", "4"), ("4th", "4"), ("fifth", "5"), ("5th", "5"), ("sixth", "6"), ("6th", "6"),
  ("seventh", "7"), ("7th", "7"), ("eighth", "8"), ("8th", "8"), ("ninth", "9"), ("9th", "9"),
  ("tenth", "10"), ("10th", "10")]

def ordinals : Replacer := ofStrings ordinalRows

end Screening.Replacer
