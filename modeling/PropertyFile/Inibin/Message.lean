import PropertyFile.Inibin.Decode
import PropertyFile.Inibin.Encode

namespace PropertyFile.Inibin

def versionMessage (n : UInt8) : String := "Unsupported Inibin version: " ++ toString n.toNat

def DecodeError.headerFault? : DecodeError → Option String
  | empty => some "empty input"
  | shortHeader => some "header shorter than 5 bytes"
  | stringOffset offset size =>
    some ("string offset " ++ toString offset ++ " outside the " ++ toString size ++
      "-byte string block")
  | _ => none

def DecodeError.message : DecodeError → String
  | versionOne => "Inibin version 1 is recognised but not supported"
  | version n => versionMessage n
  | truncated => "Truncated data"
  | reservedBlock n => "Reserved type block " ++ toString n ++ " is present"
  | e => "Malformed header: " ++ e.headerFault?.getD ""

def EncodeError.excess? : EncodeError → Option String
  | stringsTooLarge => some ("string block exceeds " ++ toString limit ++ " bytes")
  | tooMany count tag => some (toString count ++ " " ++ tag.title ++ " properties")
  | _ => none

def EncodeError.message : EncodeError → String
  | version n => versionMessage n
  | noBlock hash tag =>
    "Property " ++ hexHash hash ++ " has type " ++ tag.title ++ ", which has no Inibin block"
  | mismatch hash tag =>
    "Property " ++ hexHash hash ++ " does not hold a " ++ tag.title ++ " value"
  | e => "Too large for the format: " ++ e.excess?.getD ""

end PropertyFile.Inibin
