import Netutils.Arpa
import Netutils.Ftp.Domacro
import Netutils.Ftp.Domap
import Netutils.Ftp.DomapRoom
import Netutils.Ftp.DomapRun
import Netutils.Ftp.Getreply
import Netutils.Ftp.Makeargv
import Netutils.Ftp.Mget
import Netutils.Ftp.NameList
import Netutils.Ftp.Newer
import Netutils.Ftp.Nmap
import Netutils.Ftp.NmapDomap
import Netutils.Ftp.NmapMapped
import Netutils.Ftp.PasvAddress
import Netutils.Ftp.Remglob
import Netutils.Ftp.Ruserpass
import Netutils.Ftp.Transfer
import Netutils.Ftpd.DataDest
import Netutils.Ftpd.Lexer
import Netutils.Ftpd.Lines
import Netutils.Ftpd.Login
import Netutils.Ftpd.NextCommand
import Netutils.Ftpd.Parser
import Netutils.Ftpd.Popen
import Netutils.Ftpd.Privileges
import Netutils.Ftpd.Server
import Netutils.Ftpd.SiteModes
import Netutils.Ftpd.Stream
import Netutils.Ftpd.Tmpline
import Netutils.Ftpd.Transfer
import Netutils.Gwhois.Query
import Netutils.Gwhois.Whois
import Netutils.Ifconfig.Denote
import Netutils.Ifconfig.DenoteProofs
import Netutils.Ifconfig.Flags
import Netutils.Ifconfig.Growth
import Netutils.Ifconfig.Join
import Netutils.Ifconfig.Linux
import Netutils.Ifconfig.Output
import Netutils.Ifconfig.Plan
import Netutils.Ifconfig.Printif
import Netutils.Ifconfig.PrintifBounds
import Netutils.Ifconfig.Scan
import Netutils.Ifconfig.Template
import Netutils.Inetd.Looping
import Netutils.Inetd.Reload
import Netutils.Inetd.Selects
import Netutils.Inetd.Servtab
import Netutils.Lib.Abbrev
import Netutils.Lib.Agenda
import Netutils.Lib.BitTable
import Netutils.Lib.Buffered
import Netutils.Lib.Cells
import Netutils.Lib.Circular
import Netutils.Lib.Doubly
import Netutils.Lib.Exchange
import Netutils.Lib.Faults
import Netutils.Lib.Feedback
import Netutils.Lib.Filling
import Netutils.Lib.Linked
import Netutils.Lib.Lockstep
import Netutils.Lib.Lookahead
import Netutils.Lib.Machine
import Netutils.Lib.Mirror
import Netutils.Lib.Negotiation
import Netutils.Lib.Newline
import Netutils.Lib.OnesComplement
import Netutils.Lib.Preference
import Netutils.Lib.Repeats
import Netutils.Lib.StopAndWait
import Netutils.Lib.Switching
import Netutils.Lib.Throttle
import Netutils.Lib.Transition
import Netutils.Libc.Ctype
import Netutils.Libc.Gmtime
import Netutils.Libc.Inet
import Netutils.Libc.Quad
import Netutils.Libc.Stdio
import Netutils.Libc.Syslog
import Netutils.Libicmp.Cksum
import Netutils.Libinetutils.Argcv
import Netutils.Libinetutils.ArgcvWords
import Netutils.Libinetutils.DesRw
import Netutils.Libinetutils.DoubleBuffer
import Netutils.Libinetutils.Netascii
import Netutils.Libinetutils.NormalizePath
import Netutils.Libinetutils.Tftpsubs
import Netutils.Libinetutils.Ttymsg
import Netutils.Libtelnet.Agreed
import Netutils.Libtelnet.AuthSend
import Netutils.Libtelnet.Genget
import Netutils.Libtelnet.Keyid
import Netutils.Options.Agreement
import Netutils.Options.Counters
import Netutils.Options.Machine
import Netutils.Options.Settling
import Netutils.Ping.Counts
import Netutils.Ping.Errors
import Netutils.Ping.IpOpt
import Netutils.Ping.Libping
import Netutils.Ping.Pattern
import Netutils.Protocols.Talkd
import Netutils.Rcp.Receive
import Netutils.Rcp.Record
import Netutils.Rcp.Sink
import Netutils.Rcp.Source
import Netutils.Rlogin.Writer
import Netutils.Rlogind.Protocol
import Netutils.Session.AsciiTransfer
import Netutils.Session.DataAddress
import Netutils.Session.EditMode
import Netutils.Session.EnvCommands
import Netutils.Session.Environ
import Netutils.Session.Keyboard
import Netutils.Session.RcpTree
import Netutils.Session.Screen
import Netutils.Session.Slc
import Netutils.Session.SlcAgreement
import Netutils.Session.TalkControl
import Netutils.Session.TerminalType
import Netutils.Session.TftpLossless
import Netutils.Session.TftpRequest
import Netutils.Session.TftpTransfer
import Netutils.Session.WindowSize
import Netutils.Syslogd.Cfline
import Netutils.Syslogd.CflineBounds
import Netutils.Syslogd.Duplicates
import Netutils.Syslogd.Forward
import Netutils.Syslogd.Init
import Netutils.Syslogd.Klog
import Netutils.Syslogd.Logmsg
import Netutils.Syslogd.Printline
import Netutils.Syslogd.Printsys
import Netutils.Syslogd.Relay
import Netutils.Syslogd.Selectors
import Netutils.Talk.Invite
import Netutils.Talkd.Acl
import Netutils.Talkd.Announce
import Netutils.Talkd.Expiry
import Netutils.Talkd.Ids
import Netutils.Talkd.Netdef
import Netutils.Talkd.Process
import Netutils.Talkd.Reply
import Netutils.Talkd.Table
import Netutils.Telnet.Client
import Netutils.Telnet.EnvList
import Netutils.Telnet.Environ
import Netutils.Telnet.Fifo
import Netutils.Telnet.Linemode
import Netutils.Telnet.Netoring
import Netutils.Telnet.Receive
import Netutils.Telnet.Replies
import Netutils.Telnet.Ring
import Netutils.Telnet.Send
import Netutils.Telnet.Slc
import Netutils.Telnet.Termname
import Netutils.Telnetd.Encrypt
import Netutils.Telnetd.Environ
import Netutils.Telnetd.ExpandLine
import Netutils.Telnetd.Login
import Netutils.Telnetd.Netclear
import Netutils.Telnetd.Output
import Netutils.Telnetd.Receive
import Netutils.Telnetd.Slc
import Netutils.Telnetd.SlcReply
import Netutils.Telnetd.Status
import Netutils.Telnetd.Subbuffer
import Netutils.Telnetd.Suboption
import Netutils.Telnetd.Terminaltype
import Netutils.Telnetd.Termstat
import Netutils.Tftp.Receiver
import Netutils.Tftp.Sender
import Netutils.Tftpd.Access
import Netutils.Tftpd.LastBlock
import Netutils.Tftpd.Request
import Netutils.Traceroute.Read
import Netutils.Traceroute.Trace
import Netutils.Wire.Framing
import Netutils.Wire.Receiver
import Netutils.Wire.Triplet
