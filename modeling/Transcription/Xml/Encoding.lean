/-
Transcription.Xml.Encoding — the encodings that a document may declare.

A document comes as text, and its encoding is read against the bytes of
that text: in an encoding of one byte each of them becomes a character of
its own. Every encoding here agrees with ASCII below the byte 128. Those of
several bytes are known by name, and text beyond ASCII is refused in them.
-/
import Transcription.Text.Basic

namespace Transcription.Xml

/-- An encoding of one byte: its names in capital letters, the number of bytes
that stand for the characters with their numbers, and the characters of the
bytes after these. The mark of replacement stands where nothing is
assigned. -/
structure Charset where
  names : List String
  same : Nat
  rows : List String

namespace Charset

/-- The encodings of one byte. -/
def known : List Charset :=
  [⟨["ISO-8859-1", "ISO_8859-1", "ISO-IR-100", "CP819", "IBM819", "LATIN1", "L1", "CSISOLATIN1",
    "ISO8859-1", "ISO-LATIN-1"], 256, []⟩,
  ⟨["ISO-8859-2", "ISO_8859-2", "ISO-IR-101", "LATIN2", "L2", "CSISOLATIN2", "ISO8859-2",
     "ISO-LATIN-2"],
    160,
   ["\u00a0Ą˘Ł¤ĽŚ§¨ŠŞŤŹ\u00adŽŻ°ą˛ł´ľśˇ¸šşťź˝žżŔÁÂĂÄĹĆÇČÉĘËĚÍÎĎĐŃŇÓÔŐÖ×ŘŮÚŰÜÝŢßŕáâăäĺćçčéęëěí",
     "îďđńňóôőö÷řůúűüýţ˙"]⟩,
  ⟨["ISO-8859-3", "ISO_8859-3", "ISO-IR-109", "LATIN3", "L3", "CSISOLATIN3", "ISO8859-3"],
    160,
   ["\u00a0Ħ˘£¤\ufffdĤ§¨İŞĞĴ\u00ad\ufffdŻ°ħ²³´µĥ·¸ışğĵ½\ufffdżÀÁÂ\ufffdÄĊĈÇÈÉÊËÌÍÎÏ\ufffdÑÒÓÔ",
     "ĠÖ×ĜÙÚÛÜŬŜßàáâ\ufffdäċĉçèéêëìíîï\ufffdñòóôġö÷ĝùúûüŭŝ˙"]⟩,
  ⟨["ISO-8859-4", "ISO_8859-4", "ISO-IR-110", "LATIN4", "L4", "CSISOLATIN4", "ISO8859-4"],
    160,
   ["\u00a0ĄĸŖ¤ĨĻ§¨ŠĒĢŦ\u00adŽ¯°ą˛ŗ´ĩļˇ¸šēģŧŊžŋĀÁÂÃÄÅÆĮČÉĘËĖÍÎĪĐŅŌĶÔÕÖ×ØŲÚÛÜŨŪßāáâãäåæįčéęëėí",
     "îīđņōķôõö÷øųúûüũū˙"]⟩,
  ⟨["ISO-8859-5", "ISO_8859-5", "ISO-IR-144", "CYRILLIC", "CSISOLATINCYRILLIC", "ISO8859-5"],
    160,
   ["\u00a0ЁЂЃЄЅІЇЈЉЊЋЌ\u00adЎЏАБВГДЕЖЗИЙКЛМНОПРСТУФХЦЧШЩЪЫЬЭЮЯабвгдежзийклмнопрстуфхцчшщъыьэ",
     "юя№ёђѓєѕіїјљњћќ§ўџ"]⟩,
  ⟨["ISO-8859-6", "ISO_8859-6", "ISO-IR-127", "ECMA-114", "ASMO-708", "ARABIC",
     "CSISOLATINARABIC", "ISO8859-6"],
    160,
   ["\u00a0\ufffd\ufffd\ufffd¤\ufffd\ufffd\ufffd\ufffd\ufffd\ufffd\ufffd،\u00ad\ufffd\ufffd",
     "\ufffd\ufffd\ufffd\ufffd\ufffd\ufffd\ufffd\ufffd\ufffd\ufffd\ufffd\u061b\ufffd\ufffd",
     "\ufffd\u061f\ufffd\u0621\u0622\u0623\u0624\u0625\u0626\u0627\u0628\u0629\u062a\u062b",
     "\u062c\u062d\u062e\u062f\u0630\u0631\u0632\u0633\u0634\u0635\u0636\u0637\u0638\u0639",
     "\u063a\ufffd\ufffd\ufffd\ufffd\ufffd\u0640\u0641\u0642\u0643\u0644\u0645\u0646\u0647",
     "\u0648\u0649\u064a\u064b\u064c\u064d\u064e\u064f\u0650\u0651\u0652\ufffd\ufffd\ufffd",
     "\ufffd\ufffd\ufffd\ufffd\ufffd\ufffd\ufffd\ufffd\ufffd\ufffd"]⟩,
  ⟨["ISO-8859-7", "ISO_8859-7", "ISO-IR-126", "ECMA-118", "ELOT_928", "GREEK8", "GREEK",
     "CSISOLATINGREEK", "ISO8859-7"],
    160,
   ["\u00a0‘’£€₯¦§¨©ͺ«¬\u00ad\ufffd―°±²³΄΅Ά·ΈΉΊ»Ό½ΎΏΐΑΒΓΔΕΖΗΘΙΚΛΜΝΞΟΠΡ\ufffdΣΤΥΦΧΨΩΪΫάέήίΰαβγ",
     "δεζηθικλμνξοπρςστυφχψωϊϋόύώ\ufffd"]⟩,
  ⟨["ISO-8859-8", "ISO_8859-8", "ISO-IR-138", "HEBREW", "CSISOLATINHEBREW", "ISO8859-8"],
    160,
   ["\u00a0\ufffd¢£¤¥¦§¨©×«¬\u00ad®¯°±²³´µ¶·¸¹÷»¼½¾\ufffd\ufffd\ufffd\ufffd\ufffd\ufffd\ufffd",
     "\ufffd\ufffd\ufffd\ufffd\ufffd\ufffd\ufffd\ufffd\ufffd\ufffd\ufffd\ufffd\ufffd\ufffd",
     "\ufffd\ufffd\ufffd\ufffd\ufffd\ufffd\ufffd\ufffd\ufffd\ufffd\ufffd‗\u05d0\u05d1\u05d2",
     "\u05d3\u05d4\u05d5\u05d6\u05d7\u05d8\u05d9\u05da\u05db\u05dc\u05dd\u05de\u05df\u05e0",
     "\u05e1\u05e2\u05e3\u05e4\u05e5\u05e6\u05e7\u05e8\u05e9\u05ea\ufffd\ufffd\u200e\u200f",
     "\ufffd"]⟩,
  ⟨["ISO-8859-9", "ISO_8859-9", "ISO-IR-148", "LATIN5", "L5", "CSISOLATIN5", "ISO8859-9"],
    160,
   ["\u00a0¡¢£¤¥¦§¨©ª«¬\u00ad®¯°±²³´µ¶·¸¹º»¼½¾¿ÀÁÂÃÄÅÆÇÈÉÊËÌÍÎÏĞÑÒÓÔÕÖ×ØÙÚÛÜİŞßàáâãäåæçèéêëìí",
     "îïğñòóôõö÷øùúûüışÿ"]⟩,
  ⟨["ISO-8859-10", "ISO_8859-10", "ISO-IR-157", "LATIN6", "L6", "CSISOLATIN6", "ISO8859-10"],
    160,
   ["\u00a0ĄĒĢĪĨĶ§ĻĐŠŦŽ\u00adŪŊ°ąēģīĩķ·ļđšŧž―ūŋĀÁÂÃÄÅÆĮČÉĘËĖÍÎÏÐŅŌÓÔÕÖŨØŲÚÛÜÝÞßāáâãäåæįčéęëėí",
     "îïðņōóôõöũøųúûüýþĸ"]⟩,
  ⟨["ISO-8859-11", "ISO_8859-11", "ISO8859-11"],
    160,
   ["\u00a0กขฃคฅฆงจฉชซฌญฎฏฐฑฒณดตถทธนบปผฝพฟภมยรฤลฦวศษสหฬอฮฯะ\u0e31าำ\u0e34\u0e35\u0e36\u0e37",
     "\u0e38\u0e39\u0e3a\ufffd\ufffd\ufffd\ufffd฿เแโใไๅๆ\u0e47\u0e48\u0e49\u0e4a\u0e4b\u0e4c",
     "\u0e4d\u0e4e๏๐๑๒๓๔๕๖๗๘๙๚๛\ufffd\ufffd\ufffd\ufffd"]⟩,
  ⟨["ISO-8859-13", "ISO_8859-13", "ISO-IR-179", "LATIN7", "L7", "ISO8859-13"],
    160,
   ["\u00a0”¢£¤„¦§Ø©Ŗ«¬\u00ad®Æ°±²³“µ¶·ø¹ŗ»¼½¾æĄĮĀĆÄÅĘĒČÉŹĖĢĶĪĻŠŃŅÓŌÕÖ×ŲŁŚŪÜŻŽßąįāćäåęēčéźėģķ",
     "īļšńņóōõö÷ųłśūüżž’"]⟩,
  ⟨["ISO-8859-14", "ISO_8859-14", "ISO-IR-199", "LATIN8", "L8", "ISO-CELTIC", "ISO8859-14"],
    160,
   ["\u00a0Ḃḃ£ĊċḊ§Ẁ©ẂḋỲ\u00ad®ŸḞḟĠġṀṁ¶ṖẁṗẃṠỳẄẅṡÀÁÂÃÄÅÆÇÈÉÊËÌÍÎÏŴÑÒÓÔÕÖṪØÙÚÛÜÝŶßàáâãäåæçèéêëìí",
     "îïŵñòóôõöṫøùúûüýŷÿ"]⟩,
  ⟨["ISO-8859-15", "ISO_8859-15", "ISO-IR-203", "LATIN-9", "ISO8859-15"],
    160,
   ["\u00a0¡¢£€¥Š§š©ª«¬\u00ad®¯°±²³Žµ¶·ž¹º»ŒœŸ¿ÀÁÂÃÄÅÆÇÈÉÊËÌÍÎÏÐÑÒÓÔÕÖ×ØÙÚÛÜÝÞßàáâãäåæçèéêëìí",
     "îïðñòóôõö÷øùúûüýþÿ"]⟩,
  ⟨["ISO-8859-16", "ISO_8859-16", "ISO-IR-226", "LATIN10", "L10", "ISO8859-16"],
    160,
   ["\u00a0ĄąŁ€„Š§š©Ș«Ź\u00adźŻ°±ČłŽ”¶·žčș»ŒœŸżÀÁÂĂÄĆÆÇÈÉÊËÌÍÎÏĐŃÒÓÔŐÖŚŰÙÚÛÜĘȚßàáâăäćæçèéêëìí",
     "îïđńòóôőöśűùúûüęțÿ"]⟩,
  ⟨["WINDOWS-1250", "CP1250", "MS-EE"],
    128,
   ["€\ufffd‚\ufffd„…†‡\ufffd‰Š‹ŚŤŽŹ\ufffd‘’“”•–—\ufffd™š›śťžź\u00a0ˇ˘Ł¤Ą¦§¨©Ş«¬\u00ad®Ż°±˛ł´",
     "µ¶·¸ąş»Ľ˝ľżŔÁÂĂÄĹĆÇČÉĘËĚÍÎĎĐŃŇÓÔŐÖ×ŘŮÚŰÜÝŢßŕáâăäĺćçčéęëěíîďđńňóôőö÷řůúűüýţ˙"]⟩,
  ⟨["WINDOWS-1251", "CP1251", "MS-CYRL"],
    128,
   ["ЂЃ‚ѓ„…†‡€‰Љ‹ЊЌЋЏђ‘’“”•–—\ufffd™љ›њќћџ\u00a0ЎўЈ¤Ґ¦§Ё©Є«¬\u00ad®Ї°±Ііґµ¶·ё№є»јЅѕїАБВГДЕЖЗИ",
     "ЙКЛМНОПРСТУФХЦЧШЩЪЫЬЭЮЯабвгдежзийклмнопрстуфхцчшщъыьэюя"]⟩,
  ⟨["WINDOWS-1252", "CP1252", "MS-ANSI"],
    128,
   ["€\ufffd‚ƒ„…†‡ˆ‰Š‹Œ\ufffdŽ\ufffd\ufffd‘’“”•–—˜™š›œ\ufffdžŸ\u00a0¡¢£¤¥¦§¨©ª«¬\u00ad®¯°±²³´",
     "µ¶·¸¹º»¼½¾¿ÀÁÂÃÄÅÆÇÈÉÊËÌÍÎÏÐÑÒÓÔÕÖ×ØÙÚÛÜÝÞßàáâãäåæçèéêëìíîïðñòóôõö÷øùúûüýþÿ"]⟩,
  ⟨["WINDOWS-1253", "CP1253", "MS-GREEK"],
    128,
   ["€\ufffd‚ƒ„…†‡\ufffd‰\ufffd‹\ufffd\ufffd\ufffd\ufffd\ufffd‘’“”•–—\ufffd™\ufffd›\ufffd",
     "\ufffd\ufffd\ufffd\u00a0΅Ά£¤¥¦§¨©\ufffd«¬\u00ad®―°±²³΄µ¶·ΈΉΊ»Ό½ΎΏΐΑΒΓΔΕΖΗΘΙΚΛΜΝΞΟΠΡ",
     "\ufffdΣΤΥΦΧΨΩΪΫάέήίΰαβγδεζηθικλμνξοπρςστυφχψωϊϋόύώ\ufffd"]⟩,
  ⟨["WINDOWS-1254", "CP1254", "MS-TURK"],
    128,
   ["€\ufffd‚ƒ„…†‡ˆ‰Š‹Œ\ufffd\ufffd\ufffd\ufffd‘’“”•–—˜™š›œ\ufffd\ufffdŸ\u00a0¡¢£¤¥¦§¨©ª«¬",
     "\u00ad®¯°±²³´µ¶·¸¹º»¼½¾¿ÀÁÂÃÄÅÆÇÈÉÊËÌÍÎÏĞÑÒÓÔÕÖ×ØÙÚÛÜİŞßàáâãäåæçèéêëìíîïğñòóôõö÷øùúûüışÿ"]⟩,
  ⟨["WINDOWS-1255", "CP1255", "MS-HEBR"],
    128,
   ["€\ufffd‚ƒ„…†‡ˆ‰\ufffd‹\ufffd\ufffd\ufffd\ufffd\ufffd‘’“”•–—˜™\ufffd›\ufffd\ufffd\ufffd",
     "\ufffd\u00a0¡¢£₪¥¦§¨©×«¬\u00ad®¯°±²³´µ¶·¸¹÷»¼½¾¿\u05b0\u05b1\u05b2\u05b3\u05b4\u05b5",
     "\u05b6\u05b7\u05b8\u05b9\ufffd\u05bb\u05bc\u05bd\u05be\u05bf\u05c0\u05c1\u05c2\u05c3",
     "\u05f0\u05f1\u05f2\u05f3\u05f4\ufffd\ufffd\ufffd\ufffd\ufffd\ufffd\ufffd\u05d0\u05d1",
     "\u05d2\u05d3\u05d4\u05d5\u05d6\u05d7\u05d8\u05d9\u05da\u05db\u05dc\u05dd\u05de\u05df",
     "\u05e0\u05e1\u05e2\u05e3\u05e4\u05e5\u05e6\u05e7\u05e8\u05e9\u05ea\ufffd\ufffd\u200e",
     "\u200f\ufffd"]⟩,
  ⟨["WINDOWS-1256", "CP1256", "MS-ARAB"],
    128,
   ["€\u067e‚ƒ„…†‡ˆ‰\u0679‹Œ\u0686\u0698\u0688\u06af‘’“”•–—\u06a9™\u0691›œ\u200c\u200d\u06ba",
     "\u00a0،¢£¤¥¦§¨©\u06be«¬\u00ad®¯°±²³´µ¶·¸¹\u061b»¼½¾\u061f\u06c1\u0621\u0622\u0623\u0624",
     "\u0625\u0626\u0627\u0628\u0629\u062a\u062b\u062c\u062d\u062e\u062f\u0630\u0631\u0632",
     "\u0633\u0634\u0635\u0636×\u0637\u0638\u0639\u063a\u0640\u0641\u0642\u0643à\u0644â\u0645",
     "\u0646\u0647\u0648çèéêë\u0649\u064aîï\u064b\u064c\u064d\u064eô\u064f\u0650÷\u0651ù\u0652",
     "ûü\u200e\u200f\u06d2"]⟩,
  ⟨["WINDOWS-1257", "CP1257", "WINBALTRIM"],
    128,
   ["€\ufffd‚\ufffd„…†‡\ufffd‰\ufffd‹\ufffd¨ˇ¸\ufffd‘’“”•–—\ufffd™\ufffd›\ufffd¯˛\ufffd\u00a0",
     "\ufffd¢£¤\ufffd¦§Ø©Ŗ«¬\u00ad®Æ°±²³´µ¶·ø¹ŗ»¼½¾æĄĮĀĆÄÅĘĒČÉŹĖĢĶĪĻŠŃŅÓŌÕÖ×ŲŁŚŪÜŻŽßąįāćäåęēčé",
     "źėģķīļšńņóōõö÷ųłśūüżž˙"]⟩,
  ⟨["WINDOWS-1258", "CP1258"],
    128,
   ["€\ufffd‚ƒ„…†‡ˆ‰\ufffd‹Œ\ufffd\ufffd\ufffd\ufffd‘’“”•–—˜™\ufffd›œ\ufffd\ufffdŸ\u00a0¡¢£¤¥",
     "¦§¨©ª«¬\u00ad®¯°±²³´µ¶·¸¹º»¼½¾¿ÀÁÂĂÄÅÆÇÈÉÊË\u0300ÍÎÏĐÑ\u0309ÓÔƠÖ×ØÙÚÛÜƯ\u0303ßàáâăäåæçèé",
     "êë\u0301íîïđñ\u0323óôơö÷øùúûüư₫ÿ"]⟩,
  ⟨["KOI8-R", "CSKOI8R"],
    128,
   ["─│┌┐└┘├┤┬┴┼▀▄█▌▐░▒▓⌠■∙√≈≤≥\u00a0⌡°²·÷═║╒ё╓╔╕╖╗╘╙╚╛╜╝╞╟╠╡Ё╢╣╤╥╦╧╨╩╪╫╬©юабцдефгхийклмнопяр",
     "стужвьызшэщчъЮАБЦДЕФГХИЙКЛМНОПЯРСТУЖВЬЫЗШЭЩЧЪ"]⟩,
  ⟨["KOI8-U"],
    128,
   ["─│┌┐└┘├┤┬┴┼▀▄█▌▐░▒▓⌠■∙√≈≤≥\u00a0⌡°²·÷═║╒ёє╔ії╗╘╙╚╛ґ╝╞╟╠╡ЁЄ╣ІЇ╦╧╨╩╪Ґ╬©юабцдефгхийклмнопяр",
     "стужвьызшэщчъЮАБЦДЕФГХИЙКЛМНОПЯРСТУЖВЬЫЗШЭЩЧЪ"]⟩,
  ⟨["CP850", "IBM850", "CSPC850MULTILINGUAL"],
    128,
   ["ÇüéâäàåçêëèïîìÄÅÉæÆôöòûùÿÖÜø£Ø×ƒáíóúñÑªº¿®¬½¼¡«»░▒▓│┤ÁÂÀ©╣║╗╝¢¥┐└┴┬├─┼ãÃ╚╔╩╦╠═╬¤ðÐÊËÈıÍÎ",
     "Ï┘┌█▄¦Ì▀ÓßÔÒõÕµþÞÚÛÙýÝ¯´\u00ad±‗¾¶§÷¸°¨·¹³²■\u00a0"]⟩,
  ⟨["CP862", "IBM862", "CSPC862LATINHEBREW"],
    128,
   ["\u05d0\u05d1\u05d2\u05d3\u05d4\u05d5\u05d6\u05d7\u05d8\u05d9\u05da\u05db\u05dc\u05dd",
     "\u05de\u05df\u05e0\u05e1\u05e2\u05e3\u05e4\u05e5\u05e6\u05e7\u05e8\u05e9\u05ea¢£¥₧ƒáíóúñ",
     "Ñªº¿⌐¬½¼¡«»░▒▓│┤╡╢╖╕╣║╗╝╜╛┐└┴┬├─┼╞╟╚╔╩╦╠═╬╧╨╤╥╙╘╒╓╫╪┘┌█▄▌▐▀αßΓπΣσµτΦΘΩδ∞φε∩≡±≥≤⌠⌡÷≈°∙·√ⁿ",
     "²■\u00a0"]⟩,
  ⟨["CP866", "IBM866", "CSIBM866"],
    128,
   ["АБВГДЕЖЗИЙКЛМНОПРСТУФХЦЧШЩЪЫЬЭЮЯабвгдежзийклмноп░▒▓│┤╡╢╖╕╣║╗╝╜╛┐└┴┬├─┼╞╟╚╔╩╦╠═╬╧╨╤╥╙╘╒╓╫",
     "╪┘┌█▄▌▐▀рстуфхцчшщъыьэюяЁёЄєЇїЎў°∙·√№¤■\u00a0"]⟩,
  ⟨["MACINTOSH", "MAC", "MACROMAN", "CSMACINTOSH"],
    128,
   ["ÄÅÇÉÑÖÜáàâäãåçéèêëíìîïñóòôöõúùûü†°¢£§•¶ß®©™´¨≠ÆØ∞±≤≥¥µ∂∑∏π∫ªºΩæø¿¡¬√ƒ≈∆«»…\u00a0ÀÃÕŒœ–—“",
     "”‘’÷◊ÿŸ⁄€‹›ﬁﬂ‡·‚„‰ÂÊÁËÈÍÎÏÌÓÔ\uf8ffÒÚÛÙıˆ˜¯˘˙˚¸˝˛ˇ"]⟩]

/-- The names of encodings of several bytes, and of rare ones of one byte, in
which text of ASCII alone reads as it stands. -/
def plainNames : List String :=
  ["US-ASCII", "ASCII", "ISO646-US", "ISO-IR-6", "ANSI_X3.4-1968", "ANSI_X3.4-1986", "CP367",
   "IBM367", "US", "CSASCII", "UTF-8-MAC", "UTF8-MAC",
   "UTF-7", "UNICODE-1-1-UTF-7", "CSUNICODE11UTF7", "C99", "JAVA",
   "KOI8-RU", "KOI8-T", "CP874", "WINDOWS-874", "CP1131", "IBM-1131", "CP1133", "IBM-CP1133",
   "MACCENTRALEUROPE", "MACICELAND", "MACCROATIAN", "MACROMANIA", "MACCYRILLIC", "MACUKRAINE",
   "MACGREEK", "MACTURKISH", "MACHEBREW", "MACARABIC", "MACTHAI",
   "HP-ROMAN8", "ROMAN8", "R8", "CSHPROMAN8", "NEXTSTEP", "ARMSCII-8", "GEORGIAN-ACADEMY",
   "GEORGIAN-PS", "PT154", "PTCP154", "CP154", "CYRILLIC-ASIAN", "CSPTCP154", "RK1048",
   "KZ-1048", "STRK1048-2002", "CSKZ1048", "MULELAO-1", "TIS-620", "TIS620", "TIS620-0",
   "TIS620.2529-1", "TIS620.2533-0", "TIS620.2533-1", "ISO-IR-166", "VISCII", "VISCII1.1-1",
   "CSVISCII", "TCVN", "TCVN-5712",
   "EUC-JP", "EUCJP", "CSEUCPKDFMTJAPANESE", "SHIFT_JIS", "SHIFT-JIS", "SJIS", "MS_KANJI",
   "CSSHIFTJIS", "CP932", "ISO-2022-JP", "CSISO2022JP", "ISO-2022-JP-1", "ISO-2022-JP-2",
   "CSISO2022JP2", "EUC-CN", "EUCCN", "GB2312", "CN-GB", "CSGB2312", "GBK", "CP936", "MS936",
   "WINDOWS-936", "GB18030", "ISO-2022-CN", "CSISO2022CN", "ISO-2022-CN-EXT", "HZ",
   "HZ-GB-2312", "EUC-TW", "EUCTW", "CSEUCTW", "BIG5", "BIG-5", "BIG-FIVE", "BIGFIVE",
   "CN-BIG5", "CSBIG5", "CP950", "BIG5-HKSCS", "BIG5HKSCS", "EUC-KR", "EUCKR", "CSEUCKR",
   "CP949", "UHC", "JOHAB", "CP1361", "ISO-2022-KR", "CSISO2022KR"]

/-- The characters that bytes stand for, if one is assigned to each. -/
def read? (charset : Charset) (bytes : List Nat) : Option Text :=
  let table := charset.rows.flatMap String.toList
  bytes.mapM fun byte =>
    if byte < charset.same then some (Char.ofNat byte)
    else table[byte - charset.same]?.filter (· ≠ '\uFFFD')

end Charset

/-- The bytes of a character in the variable-length encoding. -/
def bytes (c : Char) : List Nat :=
  let n := c.toNat
  let more (shift : Nat) : Nat := 0x80 + n / shift % 64
  if n < 0x80 then [n]
  else if n < 0x800 then [0xC0 + n / 64, more 1]
  else if n < 0x10000 then [0xE0 + n / 4096, more 64, more 1]
  else [0xF0 + n / 262144, more 4096, more 64, more 1]

/-- Whether a text is the name of an encoding: a letter, and then letters,
digits, points, low lines and hyphens. -/
def isEncodingName : Text → Bool
  | [] => false
  | c :: t => c.isAlpha && t.all fun c => c.isAlphanum || c = '.' || c = '_' || c = '-'

/-- The text that results when the bytes of a text are read in the encoding
of a name. -/
def decode? (name : Text) (t : Text) : Option Text :=
  let name := String.ofList (name.map Char.toUpper)
  if name = "UTF-8" || name = "UTF8" then some t
  else
    match Charset.known.find? fun charset => charset.names.contains name with
    | some charset => charset.read? (t.flatMap bytes)
    | none =>
        if Charset.plainNames.contains name && t.all fun c => c.toNat < 0x80 then some t
        else none

end Transcription.Xml
