import Screening.Text

namespace Screening.Phonetic

namespace Letter

@[match_pattern] abbrev A : UInt8 := 65
@[match_pattern] abbrev B : UInt8 := 66
@[match_pattern] abbrev C : UInt8 := 67
@[match_pattern] abbrev D : UInt8 := 68
@[match_pattern] abbrev E : UInt8 := 69
@[match_pattern] abbrev F : UInt8 := 70
@[match_pattern] abbrev G : UInt8 := 71
@[match_pattern] abbrev H : UInt8 := 72
@[match_pattern] abbrev I : UInt8 := 73
@[match_pattern] abbrev J : UInt8 := 74
@[match_pattern] abbrev K : UInt8 := 75
@[match_pattern] abbrev L : UInt8 := 76
@[match_pattern] abbrev M : UInt8 := 77
@[match_pattern] abbrev N : UInt8 := 78
@[match_pattern] abbrev O : UInt8 := 79
@[match_pattern] abbrev P : UInt8 := 80
@[match_pattern] abbrev Q : UInt8 := 81
@[match_pattern] abbrev R : UInt8 := 82
@[match_pattern] abbrev S : UInt8 := 83
@[match_pattern] abbrev T : UInt8 := 84
@[match_pattern] abbrev U : UInt8 := 85
@[match_pattern] abbrev V : UInt8 := 86
@[match_pattern] abbrev W : UInt8 := 87
@[match_pattern] abbrev X : UInt8 := 88
@[match_pattern] abbrev Y : UInt8 := 89
@[match_pattern] abbrev Z : UInt8 := 90

end Letter

/-- The ASCII letters of a word, as capitals. -/
def letters (word : Text) : Text := (word.filter Byte.isAlpha).map Byte.toUpper

end Screening.Phonetic
