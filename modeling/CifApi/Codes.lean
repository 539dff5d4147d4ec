import Mathlib.Tactic.Common

/-! Result codes of the library, and the navigation codes a handler may answer. -/
namespace CifApi.Code

abbrev ok : Int := 0
abbrev finished : Int := 1
abbrev error : Int := 2
abbrev memoryError : Int := 3
abbrev invalidHandle : Int := 4
abbrev internalError : Int := 5
abbrev argumentError : Int := 6
abbrev misuse : Int := 7
abbrev dupBlockcode : Int := 11
abbrev invalidBlockcode : Int := 12
abbrev nosuchBlock : Int := 13
abbrev dupFramecode : Int := 21
abbrev invalidFramecode : Int := 22
abbrev nosuchFrame : Int := 23
abbrev nosuchLoop : Int := 33
abbrev reservedLoop : Int := 34
abbrev wrongLoop : Int := 35
abbrev emptyLoop : Int := 36
abbrev nullLoop : Int := 37
abbrev dupItemname : Int := 41
abbrev invalidItemname : Int := 42
abbrev nosuchItem : Int := 43
abbrev ambiguousItem : Int := 44
abbrev invalidPacket : Int := 52
abbrev partialPacket : Int := 53
abbrev invalidNumber : Int := 72
abbrev invalidIndex : Int := 73
abbrev invalidBareValue : Int := 74
abbrev invalidChar : Int := 102
abbrev unmappedChar : Int := 103
abbrev disallowedChar : Int := 104
abbrev missingSpace : Int := 105
abbrev missingEndquote : Int := 106
abbrev unclosedText : Int := 107
abbrev overlengthLine : Int := 108
abbrev disallowedInitialChar : Int := 109
abbrev wrongEncoding : Int := 110
abbrev noBlockHeader : Int := 113
abbrev frameNotAllowed : Int := 122
abbrev noFrameTerm : Int := 123
abbrev unexpectedTerm : Int := 124
abbrev eofInFrame : Int := 126
abbrev reservedWord : Int := 132
abbrev missingValue : Int := 133
abbrev unexpectedValue : Int := 134
abbrev unexpectedDelim : Int := 135
abbrev missingDelim : Int := 136
abbrev missingKey : Int := 137
abbrev unquotedKey : Int := 138
abbrev misquotedKey : Int := 139
abbrev nullKey : Int := 140

/-- What `get_more_chars` answers inside the parser when the source has no more characters. -/
abbrev eof : Int := -1

abbrev traverseContinue : Int := 0
abbrev traverseSkipCurrent : Int := -1
abbrev traverseSkipSiblings : Int := -2
abbrev traverseEnd : Int := -3

end CifApi.Code
